import HaresBears.Handlers
import HaresBears.PartyBuilding

/-!
The redundant fields of a process agree in every reachable state: state, pending
ticket, own queue entry, reply tracker, party and local thread. Every message in
a channel is addressed properly, and no process is left ready to start a party.
-/
namespace HaresBears

open LamportQueueAlgorithm

structure Coherent (cfg : Config) (p : Pid) (a : LamportQueueAlgorithm) : Prop where
  myPid : a.myPid = p
  config : a.cfg = cfg
  policy : a.policy = ⟨cfg.partyCapacity, cfg.hareWeight, cfg.bearWeight⟩
  length : a.replyTracker.length = cfg.worldSize.toNat
  pending : a.pendingReqTicket ≠ none ↔
    a.currentState = .waitingForReplies ∨ a.currentState = .queued
  own : a.globalQueue.lookup p = a.pendingReqTicket
  cleared : a.currentState = .idle ∨ a.currentState = .inParty →
    a.replyTracker = List.replicate cfg.worldSize.toNat false
  self : a.currentState = .waitingForReplies → p < cfg.worldSize →
    a.replyTracker[p.toNat]? = some true
  complete : a.currentState = .queued → a.allRepliesReceived = true
  party : a.myParty ≠ none ↔ a.currentState = .inParty

/-- The local thread knows whether the process is in a party, and wants one
exactly when the process is idle. -/
structure InStep (r : Runtime) : Prop where
  entered : r.localSrc.currentNotification = .enteredParty ↔ r.algorithm.currentState = .inParty
  wants : r.localSrc.shouldWant = true → r.localSrc.currentNotification = .exitedParty →
    r.algorithm.currentState = .idle
  idle : r.algorithm.currentState = .idle → r.localSrc.shouldWant = true

structure Proper (cfg : Config) (src dst : Pid) (m : Message) : Prop where
  src_live : src < cfg.worldSize
  dst_live : dst < cfg.worldSize
  ne : src ≠ dst
  request : ∀ x, m = .request x → x.requestTicket.pid = src
  reply : ∀ x, m = .reply x → x.senderTicket.pid = src ∧ x.requestTicket.pid = dst
  partyStart : ∀ x, m = .partyStart x → x.senderTicket.pid = src ∧ src ∈ x.participants

structure Sound (cfg : Config) (w : World) : Prop where
  coherent : ∀ p, Coherent cfg p (algo w p)
  inStep : ∀ p, InStep (w.node p)
  proper : ∀ src dst m, m ∈ w.chan src dst → Proper cfg src dst m
  notReady : ∀ p g, ¬ (algo w p).Ready g

section Process

variable {cfg : Config} {p src : Pid} {a : LamportQueueAlgorithm} {m : Message} {g : List Pid}

theorem Coherent.create (cfg : Config) (p : Pid) : Coherent cfg p (.create p cfg) := by
  constructor <;> simp [LamportQueueAlgorithm.create]

theorem getElem?_allReplies (h : a.allRepliesReceived = true) {i : ℕ}
    (hi : i < a.replyTracker.length) : a.replyTracker[i]? = some true := by
  rw [List.getElem?_eq_getElem hi, Option.some.injEq]
  have hm := List.getElem_mem hi
  unfold allRepliesReceived at h
  cases hx : a.replyTracker[i] with
  | true => rfl
  | false =>
    rw [hx] at hm
    simp [hm] at h

theorem Coherent.absorb (h : Coherent cfg p a) (hm : Proper cfg src p m) :
    Coherent cfg p (a.absorb src m) := by
  cases m with
  | request x =>
    have hpid := hm.request x rfl
    refine { h with own := ?_ }
    simp only [LamportQueueAlgorithm.absorb, RequestQueue.lookup_insert, hpid]
    rw [if_neg hm.ne.symm, h.own]
  | reply x =>
    by_cases hw : a.currentState = .waitingForReplies
    · simp only [LamportQueueAlgorithm.absorb, hw, if_true, markReply]
      refine { h with
        length := by simp [h.length]
        pending := ?_
        cleared := ?_
        self := ?_
        complete := ?_
        party := ?_ }
      · simpa [hw] using h.pending
      · simp
      · intro _ hp
        have hself := h.self hw hp
        simp only [List.getElem?_set]
        split
        · rename_i heq
          obtain ⟨hlt, -⟩ := List.getElem?_eq_some_iff.mp hself
          rw [if_pos (heq ▸ hlt)]
        · exact hself
      · simp
      · simpa [hw] using h.party
    · simp only [LamportQueueAlgorithm.absorb, hw, if_false]
      exact { h with }
  | partyStart x =>
    simp only [LamportQueueAlgorithm.absorb]
    split
    · rename_i hn
      rw [h.myPid] at hn
      constructor <;> simp [goToParty, resetTracker, h.myPid, h.config, h.policy,
        RequestQueue.lookup_removeAll, hn]
    · rename_i hn
      rw [h.myPid] at hn
      refine { h with own := ?_ }
      simp only [RequestQueue.lookup_removeAll, if_neg hn, h.own]

theorem Coherent.settle (h : Coherent cfg p a) : Coherent cfg p a.settle := by
  unfold LamportQueueAlgorithm.settle
  split
  · rename_i hs
    refine { h with pending := ?_, cleared := ?_, self := ?_, complete := ?_, party := ?_ }
    · have hp := h.pending
      simp only [hs.1, true_or, iff_true] at hp
      simp [hp]
    · simp
    · simp
    · exact fun _ => hs.2
    · have hp := h.party
      simp only [hs.1] at hp
      simp at hp
      simp [hp]
  · exact h

theorem Coherent.afterStart (h : Coherent cfg p a) (hr : a.Ready g) :
    Coherent cfg p (a.afterStart g) := by
  have hg := hr.mem
  rw [h.myPid] at hg
  constructor <;> simp [LamportQueueAlgorithm.afterStart, h.myPid, h.config, h.policy,
    RequestQueue.lookup_removeAll, hg]

theorem Coherent.afterWant (h : Coherent cfg p a) (hs : a.currentState = .idle) :
    Coherent cfg p a.afterWant := by
  have hparty := h.party
  simp only [hs] at hparty
  constructor <;> simp_all [LamportQueueAlgorithm.afterWant, h.myPid, h.config, h.policy,
    RequestQueue.lookup_insert, UInt32.lt_iff_toNat_lt]

theorem Coherent.afterRelease (h : Coherent cfg p a) (hs : a.currentState = .inParty) :
    Coherent cfg p a.afterRelease := by
  have hown := h.own
  have hpend := h.pending
  simp only [hs] at hpend
  constructor <;> simp_all [LamportQueueAlgorithm.afterRelease, h.myPid, h.config, h.policy]

/-- Only a start that names the process moves it or clears its pending ticket. -/
theorem absorb_unnamed (src : Pid) (hn : ¬ m.Names a.myPid) :
    (a.absorb src m).currentState = a.currentState ∧
      (a.absorb src m).pendingReqTicket = a.pendingReqTicket := by
  cases m with
  | request x => exact ⟨rfl, rfl⟩
  | reply x =>
    simp only [LamportQueueAlgorithm.absorb]
    split <;> exact ⟨rfl, rfl⟩
  | partyStart x =>
    have hx : a.myPid ∉ x.participants := hn
    simp [LamportQueueAlgorithm.absorb, hx]

theorem absorb_state (src : Pid) (hn : ¬ m.Names a.myPid) :
    (a.absorb src m).currentState = a.currentState := (absorb_unnamed src hn).1

theorem absorb_state_named (src : Pid) (hn : m.Names a.myPid) :
    (a.absorb src m).currentState = .inParty := by
  cases m with
  | request x => exact hn.elim
  | reply x => exact hn.elim
  | partyStart x =>
    have hx : a.myPid ∈ x.participants := hn
    simp [LamportQueueAlgorithm.absorb, hx, goToParty, resetTracker]

theorem settle_state (a : LamportQueueAlgorithm) :
    a.settle.currentState = a.currentState ∨
      a.currentState = .waitingForReplies ∧ a.settle.currentState = .queued := by
  unfold LamportQueueAlgorithm.settle
  split
  · rename_i h
    exact Or.inr ⟨h.1, rfl⟩
  · exact Or.inl rfl

theorem settle_of_ne (h : a.currentState ≠ .waitingForReplies) : a.settle = a := by
  simp [LamportQueueAlgorithm.settle, h]

theorem absorb_pending (src : Pid) (hn : ¬ m.Names a.myPid) :
    (a.absorb src m).pendingReqTicket = a.pendingReqTicket := (absorb_unnamed src hn).2

/-- What a message does to the replica. A start that names the process itself
removes its participants twice. -/
theorem absorb_lookup (a : LamportQueueAlgorithm) (src : Pid) (m : Message) (r : Pid) :
    (a.absorb src m).globalQueue.lookup r =
      match m with
      | .request x => if r = x.requestTicket.pid then some x.requestTicket
          else a.globalQueue.lookup r
      | .reply _ => a.globalQueue.lookup r
      | .partyStart x => if r ∈ x.participants then none else a.globalQueue.lookup r := by
  cases m with
  | request x => exact RequestQueue.lookup_insert ..
  | reply x =>
    simp only [LamportQueueAlgorithm.absorb]
    split <;> rfl
  | partyStart x =>
    simp only [LamportQueueAlgorithm.absorb, goToParty, resetTracker]
    split
    · simp only [RequestQueue.lookup_removeAll]
      split <;> rfl
    · exact RequestQueue.lookup_removeAll ..

theorem settle_pending (a : LamportQueueAlgorithm) :
    a.settle.pendingReqTicket = a.pendingReqTicket := by
  unfold LamportQueueAlgorithm.settle
  split <;> rfl

theorem settle_queue (a : LamportQueueAlgorithm) : a.settle.globalQueue = a.globalQueue := by
  unfold LamportQueueAlgorithm.settle
  split <;> rfl

theorem settle_replyTracker (a : LamportQueueAlgorithm) :
    a.settle.replyTracker = a.replyTracker := by
  unfold LamportQueueAlgorithm.settle
  split <;> rfl

/-- A message drops the pending ticket or leaves it alone, and moves the tracker
of a pending request only as a reply to a waiting process. -/
theorem settled_pending {t : Ticket} (h : (a.absorb src m).settle.pendingReqTicket = some t) :
    ¬ m.Names a.myPid ∧ a.pendingReqTicket = some t ∧
      (a.absorb src m).settle.replyTracker =
        if a.currentState = .waitingForReplies ∧ m.answers ≠ none then
          a.replyTracker.set src.toNat true
        else a.replyTracker := by
  rw [settle_pending] at h
  rw [settle_replyTracker]
  by_cases hn : m.Names a.myPid
  · cases m with
    | request | reply => exact hn.elim
    | partyStart x =>
      have hx : a.myPid ∈ x.participants := hn
      simp [LamportQueueAlgorithm.absorb, hx, goToParty, resetTracker] at h
  · refine ⟨hn, (absorb_pending src hn).symm.trans h, ?_⟩
    cases m with
    | request x => simp [LamportQueueAlgorithm.absorb, Message.answers]
    | reply x =>
      by_cases hw : a.currentState = .waitingForReplies <;>
        simp [LamportQueueAlgorithm.absorb, Message.answers, hw, markReply]
    | partyStart x =>
      have hx : a.myPid ∉ x.participants := hn
      simp [LamportQueueAlgorithm.absorb, Message.answers, hx]

end Process

section Local

variable {r : Runtime} {env : Env} {src : Pid} {m : Message}

theorem InStep.heard (h : InStep r) {res : Runtime × Sends} (hh : Runtime.Heard r env src m res) :
    InStep res.1 := by
  cases hh with
  | stay a l ha _ hsame hnamed =>
    subst ha
    by_cases hn : m.Names r.algorithm.myPid
    · have hstate := absorb_state_named src hn
      rw [settle_of_ne (by simp [hstate])]
      rw [hnamed hn]
      constructor <;> simp [hstate, LocalThread.onNotify]
    · have hstate := absorb_state src hn
      have hset := settle_state (r.algorithm.absorb src m)
      rw [hsame hn]
      rw [hstate] at hset
      obtain ⟨h1, h2, h3⟩ := h
      constructor <;> simp only <;> grind
  | start a g _ _ _ =>
    constructor <;> simp [LocalThread.onNotify, LamportQueueAlgorithm.afterStart]

theorem InStep.polled (h : InStep r) {res : Runtime × Sends} (hp : Runtime.Polled r env res) :
    InStep res.1 := by
  cases hp with
  | nothing => exact h
  | want hs =>
    have hne : r.localSrc.currentNotification ≠ .enteredParty := by
      intro hx
      simp [h.entered.mp hx] at hs
    constructor <;> simp [LamportQueueAlgorithm.afterWant, hne]
  | release _ => constructor <;> simp [LocalThread.onNotify, LamportQueueAlgorithm.afterRelease]

theorem InStep.onPoll (h : InStep r) (env : Env) : Runtime.Polled r env (r.onPoll env) :=
  Runtime.onPoll_polled r env h.wants h.entered.mp

end Local

section System

variable {cfg : Config} {w : World} {p q src : Pid}

theorem proper_answer (hm : Proper cfg src p m) {a : LamportQueueAlgorithm}
    (ha : a.myPid = p) {x : Message} (hx : x ∈ (a.answer m).toList) : Proper cfg p src x := by
  cases m with
  | request y =>
    simp only [LamportQueueAlgorithm.answer, Option.toList_some, List.mem_singleton] at hx
    subst hx
    refine ⟨hm.dst_live, hm.src_live, hm.ne.symm, ?_, ?_, ?_⟩
    · intro z hz
      cases hz
    · intro z hz
      obtain rfl := Message.reply.inj hz
      exact ⟨ha, hm.request y rfl⟩
    · intro z hz
      cases hz
  | reply | partyStart => simp [LamportQueueAlgorithm.answer] at hx

theorem proper_start {a : LamportQueueAlgorithm} (ha : Coherent cfg p a) (hp : p < cfg.worldSize)
    {g : List Pid} (hr : a.Ready g) (hq : q ∈ broadcastDests a.myPid a.cfg.worldSize) :
    Proper cfg p q (.partyStart (a.startOf g)) := by
  rw [ha.myPid, ha.config] at hq
  obtain ⟨hlt, hne⟩ := mem_broadcastDests.mp hq
  refine ⟨hp, hlt, hne.symm, ?_, ?_, ?_⟩
  · intro z hz
    cases hz
  · intro z hz
    cases hz
  · intro z hz
    obtain rfl := Message.partyStart.inj hz
    exact ⟨ha.myPid, ha.myPid ▸ hr.mem⟩

theorem proper_want {a : LamportQueueAlgorithm} (ha : Coherent cfg p a) (hp : p < cfg.worldSize)
    {ts : Timestamp} (hq : q ∈ broadcastDests a.myPid a.cfg.worldSize) :
    Proper cfg p q (.request ⟨⟨a.myPid, ts⟩⟩) := by
  rw [ha.myPid, ha.config] at hq
  obtain ⟨hlt, hne⟩ := mem_broadcastDests.mp hq
  refine ⟨hp, hlt, hne.symm, ?_, ?_, ?_⟩
  · intro z hz
    obtain rfl := Message.request.inj hz
    exact ha.myPid
  · intro z hz
    cases hz
  · intro z hz
    cases hz

structure Lawful (cfg : Config) (p : Pid) (res : Runtime × Sends) : Prop where
  coherent : Coherent cfg p res.1.algorithm
  inStep : InStep res.1
  notReady : ∀ g, ¬ res.1.algorithm.Ready g
  proper : ∀ pkt ∈ res.2, ∀ q ∈ pkt.dests, Proper cfg p q pkt.msg

theorem Lawful.heard {r : Runtime} {env : Env} {res : Runtime × Sends}
    (hc : Coherent cfg p r.algorithm) (hs : InStep r) (hm : Proper cfg src p m)
    (hh : Runtime.Heard r env src m res) : Lawful cfg p res := by
  have hin := hs.heard hh
  have hans : ∀ pkt ∈ (r.algorithm.answer m).toList.map
      (fun x => (⟨[src], x⟩ : FifoNetwork.Packet Pid Message)), ∀ q ∈ pkt.dests,
      Proper cfg p q pkt.msg := by
    intro pkt hpkt q hq
    obtain ⟨x, hx, rfl⟩ := List.mem_map.mp hpkt
    obtain rfl := List.mem_singleton.mp hq
    exact proper_answer hm hc.myPid hx
  cases hh with
  | stay a l ha hr _ _ => exact ⟨ha ▸ (hc.absorb hm).settle, hin, hr, hans⟩
  | start a g ha hr _ =>
    have hca : Coherent cfg p a := ha ▸ (hc.absorb hm).settle
    refine ⟨hca.afterStart hr, hin, ?_, ?_⟩
    · intro g' hg'
      exact absurd hg'.queued (by simp [LamportQueueAlgorithm.afterStart])
    · intro pkt hpkt q hq
      rcases List.mem_append.mp hpkt with hpkt | hpkt
      · exact hans pkt hpkt q hq
      · obtain rfl := List.mem_singleton.mp hpkt
        exact proper_start hca hm.dst_live hr hq

theorem Lawful.polled {r : Runtime} {env : Env} {res : Runtime × Sends}
    (hc : Coherent cfg p r.algorithm) (hs : InStep r) (hr : ∀ g, ¬ r.algorithm.Ready g)
    (hp : p < cfg.worldSize) (hh : Runtime.Polled r env res) : Lawful cfg p res := by
  have hin := hs.polled hh
  cases hh with
  | nothing => exact ⟨hc, hin, hr, by simp⟩
  | want hidle =>
    refine ⟨hc.afterWant hidle, hin, ?_, ?_⟩
    · intro g hg
      exact absurd hg.queued (by simp [LamportQueueAlgorithm.afterWant])
    · intro pkt hpkt q hq
      obtain rfl := List.mem_singleton.mp hpkt
      exact proper_want hc hp hq
  | release hparty =>
    refine ⟨hc.afterRelease hparty, hin, ?_, by simp⟩
    intro g hg
    exact absurd hg.queued (by simp [LamportQueueAlgorithm.afterRelease])

theorem Sound.react (h : Sound cfg w) {heard : Option (Pid × Message)} {res : Runtime × Sends}
    (hl : Lawful cfg p res) : Sound cfg (w.react p heard res) where
  coherent := by
    intro q
    by_cases hq : q = p
    · subst hq
      simpa only [algo, FifoNetwork.World.react_node_self] using hl.coherent
    · simpa only [algo, FifoNetwork.World.react_node_ne _ _ _ hq] using h.coherent q
  inStep := by
    intro q
    by_cases hq : q = p
    · subst hq
      simpa only [FifoNetwork.World.react_node_self] using hl.inStep
    · simpa only [FifoNetwork.World.react_node_ne _ _ _ hq] using h.inStep q
  proper := by
    intro src dst m hm
    rcases List.mem_append.mp hm with hold | hnew
    · exact h.proper src dst m hold
    · by_cases hsrc : src = p
      · rw [if_pos hsrc] at hnew
        obtain ⟨pkt, hpkt, hq, rfl⟩ := FifoNetwork.mem_addressed.mp hnew
        exact hsrc ▸ hl.proper pkt hpkt dst hq
      · rw [if_neg hsrc] at hnew
        cases hnew
  notReady := by
    intro q g
    by_cases hq : q = p
    · subst hq
      simpa only [algo, FifoNetwork.World.react_node_self] using hl.notReady g
    · simpa only [algo, FifoNetwork.World.react_node_ne _ _ _ hq] using h.notReady q g

theorem Sound.consume (h : Sound cfg w) {rest : List Message}
    (hrest : ∀ x ∈ rest, x ∈ w.chan src p) : Sound cfg (w.consume src p rest) :=
  { h with
    proper := by
      intro a b x hx
      unfold FifoNetwork.World.consume at hx
      dsimp only at hx
      split at hx
      · rename_i hab
        obtain ⟨rfl, rfl⟩ := hab
        exact h.proper _ _ x (hrest x hx)
      · exact h.proper a b x hx }

variable {ok : World → Label → World → Prop}

/-- Every reachable world is sound. -/
theorem Sound.of_run (h : (system cfg).Run ok w) : Sound cfg w := by
  refine FifoNetwork.Protocol.Run.invariant (I := Sound cfg) ?_ ?_ ?_ h
  · refine ⟨fun p => Coherent.create cfg p, fun p => ?_, fun _ _ _ hm => (nomatch hm), ?_⟩
    · constructor <;> simp [FifoNetwork.Protocol.initial, system, LamportQueueAlgorithm.create]
    · intro p g hg
      exact absurd hg.queued
        (by simp [algo, FifoNetwork.Protocol.initial, system, LamportQueueAlgorithm.create])
  · intro w src dst env m rest _ hs hc _
    have hm : Proper cfg src dst m := hs.proper src dst m (by simp [hc])
    have hheard := Runtime.onMsg_heard (w.node dst) env src m (hs.notReady dst)
    exact (hs.consume (fun x hx => by simp [hc, hx])).react
      (Lawful.heard (hs.coherent dst) (hs.inStep dst) hm hheard)
  · intro w p env _ hs hp _
    have hpolled := (hs.inStep p).onPoll env
    exact hs.react (Lawful.polled (hs.coherent p) (hs.inStep p) (hs.notReady p) hp hpolled)

theorem channels_empty (hs : Sound cfg w)
    (h : ∀ a ∈ processes cfg.worldSize, ∀ b ∈ processes cfg.worldSize, w.chan a b = []) :
    ∀ a b, w.chan a b = [] := by
  intro a b
  cases hm : w.chan a b with
  | nil => rfl
  | cons m rest =>
    have hp := hs.proper a b m (by simp [hm])
    rw [h a (mem_processes.mpr hp.src_live) b (mem_processes.mpr hp.dst_live)] at hm
    cases hm

inductive Explained (cfg : Config) (c : Call) : Prop
  | heard (src : Pid) (m : Message) (env : Env) : c.heard = some (src, m) →
      Proper cfg src c.proc m → Runtime.Heard c.before env src m (c.after, c.out) →
      Explained cfg c
  | polled (env : Env) : c.heard = none → c.proc < cfg.worldSize →
      Runtime.Polled c.before env (c.after, c.out) → Explained cfg c

theorem answer_eq_some {a : LamportQueueAlgorithm} {m x : Message} (h : a.answer m = some x) :
    ∃ y, m = .request y ∧ x = .reply
      ⟨⟨a.myPid, (a.lamportClock.onReceive y.requestTicket.ts).now⟩, y.requestTicket⟩ := by
  cases m with
  | request y =>
    obtain rfl := Option.some.inj h
    exact ⟨y, rfl, rfl⟩
  | reply | partyStart => cases h

/-- What a call can send: the answer to the message heard, a party start after
it, or a request in a poll. -/
inductive Sent (c : Call) (pkt : FifoNetwork.Packet Pid Message) : Prop
  | answer (src : Pid) (m x : Message) : c.heard = some (src, m) →
      c.before.algorithm.answer m = some x → pkt = ⟨[src], x⟩ → Sent c pkt
  | start (src : Pid) (m : Message) (g : List Pid) : c.heard = some (src, m) →
      (c.before.algorithm.absorb src m).settle.Ready g → ¬ m.Names c.before.algorithm.myPid →
      c.after.algorithm = (c.before.algorithm.absorb src m).settle.afterStart g →
      pkt = ⟨broadcastDests (c.before.algorithm.absorb src m).settle.myPid
        (c.before.algorithm.absorb src m).settle.cfg.worldSize,
        .partyStart ((c.before.algorithm.absorb src m).settle.startOf g)⟩ → Sent c pkt
  | want : c.heard = none → c.before.algorithm.currentState = .idle →
      c.after.algorithm = c.before.algorithm.afterWant →
      pkt = ⟨broadcastDests c.before.algorithm.myPid c.before.algorithm.cfg.worldSize,
        .request ⟨⟨c.before.algorithm.myPid, c.before.algorithm.lamportClock.tick.now⟩⟩⟩ →
      Sent c pkt

theorem Explained.sent {c : Call} (h : Explained cfg c) {pkt : FifoNetwork.Packet Pid Message}
    (hpkt : pkt ∈ c.out) : Sent c pkt := by
  have hans : ∀ src m, c.heard = some (src, m) →
      pkt ∈ (c.before.algorithm.answer m).toList.map
        (fun x => (⟨[src], x⟩ : FifoNetwork.Packet Pid Message)) → Sent c pkt := by
    intro src m hh hm
    obtain ⟨x, hx, rfl⟩ := List.mem_map.mp hm
    exact .answer src m x hh (Option.mem_toList.mp hx) rfl
  cases h with
  | heard src m env hh _ hheard =>
    generalize hres : (c.after, c.out) = res at hheard
    obtain ⟨hafter, hout⟩ := Prod.mk.inj hres
    rw [hout] at hpkt
    cases hheard with
    | stay a l _ _ _ _ => exact hans src m hh hpkt
    | start a g ha hr hn =>
      subst ha
      rcases List.mem_append.mp hpkt with hpkt | hpkt
      · exact hans src m hh hpkt
      · exact .start src m g hh hr hn (congrArg Runtime.algorithm hafter)
          (List.mem_singleton.mp hpkt)
  | polled env hh _ hpolled =>
    generalize hres : (c.after, c.out) = res at hpolled
    obtain ⟨hafter, hout⟩ := Prod.mk.inj hres
    rw [hout] at hpkt
    cases hpolled with
    | nothing => cases hpkt
    | want hidle =>
      exact .want hh hidle (congrArg Runtime.algorithm hafter) (List.mem_singleton.mp hpkt)
    | release _ => cases hpkt

/-- Every call of a run is the reaction of a coherent process to a proper
message or to a poll. -/
theorem explained_of_run (h : (system cfg).Run ok w) :
    ∀ c ∈ w.past, Coherent cfg c.proc c.before.algorithm ∧ InStep c.before ∧ Explained cfg c := by
  refine FifoNetwork.Protocol.Run.invariant (I := fun w => ∀ c ∈ w.past,
    Coherent cfg c.proc c.before.algorithm ∧ InStep c.before ∧ Explained cfg c)
    (by simp [FifoNetwork.Protocol.initial]) ?_ ?_ h
  · intro w src dst env m rest hr ih hc _ c hm
    rcases List.mem_cons.mp hm with rfl | hm
    · have hs := Sound.of_run hr
      exact ⟨hs.coherent dst, hs.inStep dst, .heard src m env rfl
        (hs.proper src dst m (by simp [hc]))
        (Runtime.onMsg_heard (w.node dst) env src m (hs.notReady dst))⟩
    · exact ih c hm
  · intro w p env hr ih hp _ c hm
    rcases List.mem_cons.mp hm with rfl | hm
    · have hs := Sound.of_run hr
      exact ⟨hs.coherent p, hs.inStep p, .polled env rfl hp ((hs.inStep p).onPoll env)⟩
    · exact ih c hm

end System

section Replicas

variable {cfg : Config} {w : World} {ok : World → Label → World → Prop} {r : Runtime} {env : Env}
variable {src p : Pid} {m : Message} {res : Runtime × Sends}

/-- The replica after a message: a start of the process itself may have removed
its participants. -/
theorem heard_queue (hh : Runtime.Heard r env src m res) :
    res.1.algorithm.globalQueue = (r.algorithm.absorb src m).globalQueue ∨
      ∃ g, res.1.algorithm.globalQueue =
          (r.algorithm.absorb src m).globalQueue.removeAll g ∧
        ∃ x, x.participants = g ∧
          ⟨broadcastDests (r.algorithm.absorb src m).settle.myPid
            (r.algorithm.absorb src m).settle.cfg.worldSize, .partyStart x⟩ ∈ res.2 := by
  cases hh with
  | stay a l ha _ _ _ =>
    subst ha
    exact Or.inl (settle_queue _)
  | start a g ha _ _ =>
    subst ha
    refine Or.inr ⟨g, ?_, (r.algorithm.absorb src m).settle.startOf g, rfl, ?_⟩
    · simp only [afterStart, settle_queue]
    · exact List.mem_append_right _ (List.mem_singleton.mpr rfl)

/-- The replica lists live processes only. -/
theorem lookup_absorb_live {a : LamportQueueAlgorithm} (hm : Proper cfg src p m)
    (hl : ∀ r t, a.globalQueue.lookup r = some t → r < cfg.worldSize) :
    ∀ r t, (a.absorb src m).globalQueue.lookup r = some t → r < cfg.worldSize := by
  intro r t h
  rw [absorb_lookup] at h
  cases m with
  | request x =>
    simp only [hm.request x rfl] at h
    split at h
    · rename_i heq
      exact heq ▸ hm.src_live
    · exact hl r t h
  | reply x => exact hl r t h
  | partyStart x =>
    dsimp only at h
    split at h
    · cases h
    · exact hl r t h

theorem heard_live (hh : Runtime.Heard r env src m res) (hm : Proper cfg src p m)
    (hl : ∀ q t, r.algorithm.globalQueue.lookup q = some t → q < cfg.worldSize) :
    ∀ q t, res.1.algorithm.globalQueue.lookup q = some t → q < cfg.worldSize := by
  intro q t h
  apply lookup_absorb_live hm hl q t
  rcases heard_queue hh with heq | ⟨g, heq, -⟩
  · rwa [heq] at h
  · rw [heq, RequestQueue.lookup_removeAll] at h
    split at h
    · cases h
    · exact h

theorem polled_live (hh : Runtime.Polled r env res) (hc : r.algorithm.myPid < cfg.worldSize)
    (hl : ∀ q t, r.algorithm.globalQueue.lookup q = some t → q < cfg.worldSize) :
    ∀ q t, res.1.algorithm.globalQueue.lookup q = some t → q < cfg.worldSize := by
  intro q t h
  cases hh with
  | nothing => exact hl q t h
  | want _ =>
    simp only [afterWant, RequestQueue.lookup_insert] at h
    split at h
    · rename_i heq
      exact heq ▸ hc
    · exact hl q t h
  | release _ => exact hl q t h

theorem react_live {heard : Option (Pid × Message)}
    (hnode : ∀ q r t, (algo w q).globalQueue.lookup r = some t → r < cfg.worldSize)
    (hpast : ∀ c ∈ w.past, ∀ r t, c.before.algorithm.globalQueue.lookup r = some t →
      r < cfg.worldSize)
    (hres : ∀ r t, res.1.algorithm.globalQueue.lookup r = some t → r < cfg.worldSize) :
    (∀ q r t, (algo (w.react p heard res) q).globalQueue.lookup r = some t →
      r < cfg.worldSize) ∧
    ∀ c ∈ (w.react p heard res).past, ∀ r t, c.before.algorithm.globalQueue.lookup r = some t →
      r < cfg.worldSize := by
  constructor
  · intro q r t h
    by_cases hq : q = p
    · subst hq
      rw [algo, FifoNetwork.World.react_node_self] at h
      exact hres r t h
    · rw [algo, FifoNetwork.World.react_node_ne _ _ _ hq] at h
      exact hnode q r t h
  · intro c hc
    rcases List.mem_cons.mp hc with rfl | hc
    · exact hnode p
    · exact hpast c hc

/-- In every run the replicas list live processes only, now and before any call. -/
theorem replicas_live (h : (system cfg).Run ok w) :
    (∀ p r t, (algo w p).globalQueue.lookup r = some t → r < cfg.worldSize) ∧
    ∀ c ∈ w.past, ∀ r t, c.before.algorithm.globalQueue.lookup r = some t →
      r < cfg.worldSize := by
  refine FifoNetwork.Protocol.Run.invariant (I := fun w =>
    (∀ p r t, (algo w p).globalQueue.lookup r = some t → r < cfg.worldSize) ∧
    ∀ c ∈ w.past, ∀ r t, c.before.algorithm.globalQueue.lookup r = some t →
      r < cfg.worldSize) ?_ ?_ ?_ h
  · refine ⟨?_, fun c hc => (nomatch hc)⟩
    intro p r t hl
    simp [algo, FifoNetwork.Protocol.initial, system, LamportQueueAlgorithm.create] at hl
  · intro w src dst env m rest hr ih hc _
    have hs := Sound.of_run hr
    have hheard := Runtime.onMsg_heard (w.node dst) env src m (hs.notReady dst)
    exact react_live (w := w.consume src dst rest) ih.1 ih.2
      (heard_live hheard (hs.proper src dst m (by simp [hc])) (ih.1 dst))
  · intro w p env hr ih hp _
    have hs := Sound.of_run hr
    refine react_live ih.1 ih.2 (polled_live ((hs.inStep p).onPoll env) ?_ (ih.1 p))
    rwa [(hs.coherent p).myPid]

end Replicas

end HaresBears
