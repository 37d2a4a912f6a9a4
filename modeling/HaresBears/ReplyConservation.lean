import HaresBears.DeliveryOrder

/-!
Conservation of replies. Every request a process makes is, for each peer, still
on its way, on its way back as a reply, or answered and handled; where no clock
wraps it is exactly one of these, once. Replies are counted by sender only, so a
reply counts for the request it answers when it is the last one between the two.
-/
namespace HaresBears

open FifoNetwork LamportQueueAlgorithm

section Calls

variable {cfg : Config} {r : Runtime} {env : Env} {src : Pid} {m : Message}
variable {res : Runtime × Sends} {t : Ticket}

/-- A process answers a request to its sender, once, and nothing else. -/
theorem answers_heard (hh : Runtime.Heard r env src m res) (p : Pid) :
    (addressed p res.2).filterMap Message.answers =
      if src = p then m.asks.toList else [] := by
  have hans : (addressed p ((r.algorithm.answer m).toList.map
      (fun x => (⟨[src], x⟩ : Packet Pid Message)))).filterMap Message.answers =
        if src = p then m.asks.toList else [] := by
    cases m with
    | request x =>
      by_cases hp : src = p
      · simp [answer, addressed_cons, hp, Message.answers, Message.asks]
      · simp [answer, addressed_cons, hp, Ne.symm hp]
    | reply | partyStart => simp [answer, Message.asks]
  cases hh with
  | stay => exact hans
  | start a g _ _ _ =>
    have hstart : (addressed p [(⟨broadcastDests a.myPid a.cfg.worldSize,
        .partyStart (a.startOf g)⟩ : Packet Pid Message)]).filterMap Message.answers = [] := by
      rw [addressed_cons]
      split <;> simp [Message.answers]
    rw [addressed_append, List.filterMap_append, hans, hstart, List.append_nil]

theorem answers_polled (hh : Runtime.Polled r env res) (p : Pid) :
    (addressed p res.2).filterMap Message.answers = [] := by
  cases hh with
  | nothing => rfl
  | want _ =>
    rw [addressed_cons]
    split <;> simp [Message.answers]
  | release _ => rfl

theorem Explained.answers {c : Call} (h : Explained cfg c) (p q : Pid) :
    (c.sentTo q p).filterMap Message.answers = (c.gotFrom p q).filterMap Message.asks := by
  unfold Call.sentTo Call.gotFrom
  cases h with
  | heard src m env hh _ hheard =>
    rw [hh]
    have hout := answers_heard hheard p
    dsimp only at hout ⊢
    by_cases hq : c.proc = q
    · by_cases hp : src = p
      · simp only [hq, hp, if_true] at hout ⊢
        rw [hout]
        cases hm : m.asks <;> simp [hm]
      · simpa [hq, hp] using hout
    · simp [hq]
  | polled env hh _ hpolled =>
    rw [hh]
    have hout := answers_polled hpolled p
    split
    · exact hout
    · rfl

/-- A process that hears a message makes no request. -/
theorem asks_heard (hh : Runtime.Heard r env src m res) (q : Pid) :
    (addressed q res.2).filterMap Message.asks = [] := by
  rw [List.filterMap_eq_nil_iff]
  intro x hx
  obtain ⟨pkt, hpkt, -, rfl⟩ := mem_addressed.mp hx
  have hans : pkt ∈ (r.algorithm.answer m).toList.map
      (fun x => (⟨[src], x⟩ : Packet Pid Message)) → pkt.msg.asks = none := by
    intro hmem
    obtain ⟨y, hy, rfl⟩ := List.mem_map.mp hmem
    obtain ⟨z, -, rfl⟩ := answer_eq_some (Option.mem_toList.mp hy)
    rfl
  cases hh with
  | stay => exact hans hpkt
  | start a g _ _ _ =>
    rcases List.mem_append.mp hpkt with hpkt | hpkt
    · exact hans hpkt
    · obtain rfl := List.mem_singleton.mp hpkt
      rfl

/-- A request that is pending after a message was so before it and is not served by
it, and the tracker moves only when a waiting process hears a reply. -/
theorem heard_pending (hh : Runtime.Heard r env src m res)
    (hp : res.1.algorithm.pendingReqTicket = some t) :
    ¬ m.Names r.algorithm.myPid ∧ r.algorithm.pendingReqTicket = some t ∧
      res.1.algorithm.replyTracker =
        if r.algorithm.currentState = .waitingForReplies ∧ m.answers ≠ none then
          r.algorithm.replyTracker.set src.toNat true
        else r.algorithm.replyTracker := by
  cases hh with
  | stay a l ha _ _ _ =>
    subst ha
    exact settled_pending hp
  | start a g _ _ _ => simp [afterStart] at hp

/-- A reply to the pending request is marked, and marks stay. -/
theorem heard_marks (hh : Runtime.Heard r env src m res)
    (hw : r.algorithm.currentState = .waitingForReplies)
    (hp : res.1.algorithm.pendingReqTicket = some t) {i : ℕ}
    (hi : i < r.algorithm.replyTracker.length)
    (hm : r.algorithm.replyTracker[i]? = some true ∨ i = src.toNat ∧ m.answers = some t) :
    res.1.algorithm.replyTracker[i]? = some true := by
  rw [(heard_pending hh hp).2.2]
  rcases hm with hm | ⟨rfl, hans⟩
  · split
    · rw [List.getElem?_set]
      split
      · rw [if_pos (by omega)]
      · exact hm
    · exact hm
  · rw [if_pos ⟨hw, by simp [hans]⟩, List.getElem?_set_self hi]

/-- A process that waits after a message has waited before it. -/
theorem heard_waiting (hh : Runtime.Heard r env src m res)
    (hw : res.1.algorithm.currentState = .waitingForReplies) :
    r.algorithm.currentState = .waitingForReplies := by
  cases hh with
  | stay a l ha _ _ _ =>
    subst ha
    rcases settle_state (r.algorithm.absorb src m) with hsame | hmoved
    · rw [hsame] at hw
      by_cases hn : m.Names r.algorithm.myPid
      · rw [absorb_state_named src hn] at hw
        cases hw
      · rwa [absorb_state src hn] at hw
    · rw [hmoved.2] at hw
      cases hw
  | start a g _ _ _ => simp [afterStart] at hw

end Calls

section Conservation

variable {cfg : Config} {w : World} {ok : World → Label → World → Prop}

/-- Conservation of requests and replies between two processes. -/
theorem asked_eq_replied (h : (system cfg).Run ok w) (p q : Pid) :
    (sent w.past p q).filterMap Message.asks =
      (got w.past q p).filterMap Message.answers ++
        (w.chan q p).filterMap Message.answers ++ (w.chan p q).filterMap Message.asks :=
  asked_eq_answered h p q Message.asks Message.answers
    (fun c hc => (explained_of_run h c hc).2.2.answers p q)

/-- A pending request is the last one its process has made to each other process. -/
theorem pending_asked_last (h : (system cfg).Run ok w) :
    ∀ p t, (algo w p).pendingReqTicket = some t → ∀ q < cfg.worldSize, q ≠ p →
      ((sent w.past p q).filterMap Message.asks).getLast? = some t := by
  refine Protocol.Run.invariant (I := fun w => ∀ p t, (algo w p).pendingReqTicket = some t →
    ∀ q < cfg.worldSize, q ≠ p →
      ((sent w.past p q).filterMap Message.asks).getLast? = some t) ?_ ?_ ?_ h
  · intro p t hp
    simp [algo, Protocol.initial, system, LamportQueueAlgorithm.create] at hp
  · intro w src dst env m rest hr ih hc _ p t hp q hq hne
    have hheard := Runtime.onMsg_heard (w.node dst) env src m ((Sound.of_run hr).notReady dst)
    have hout := asks_heard hheard q
    by_cases hpd : p = dst
    · subst hpd
      rw [algo, Protocol.hear_node_self] at hp
      have hold := (heard_pending hheard hp).2.1
      simp only [Protocol.hear, World.react, sent_cons, World.consume_past, Call.sentTo, if_true,
        List.filterMap_append, system_onMsg, hout, List.append_nil]
      exact ih p t hold q hq hne
    · rw [algo, Protocol.hear_node_ne hpd] at hp
      simp only [Protocol.hear, World.react, sent_cons, World.consume_past, Call.sentTo,
        if_neg (Ne.symm hpd), List.append_nil]
      exact ih p t hp q hq hne
  · intro w r env hr ih hlive _ p t hp q hq hne
    have hs := Sound.of_run hr
    have hpolled := (hs.inStep r).onPoll env
    by_cases hpr : p = r
    · subst hpr
      rw [algo, Protocol.turn_node_self] at hp
      have hpid := (hs.coherent p).myPid
      have hconf := (hs.coherent p).config
      simp only [Protocol.turn, World.react, sent_cons, Call.sentTo, if_true,
        List.filterMap_append, system_onPoll]
      rw [system_onPoll] at hp
      generalize Runtime.onPoll (w.node p) env = res at hpolled hp
      cases hpolled with
      | nothing =>
        rw [addressed_nil, List.filterMap_nil, List.append_nil]
        exact ih p t hp q hq hne
      | want _ =>
        have hmem : q ∈ broadcastDests (w.node p).algorithm.myPid
            (w.node p).algorithm.cfg.worldSize := by
          rw [hpid, hconf, mem_broadcastDests]
          exact ⟨hq, hne⟩
        rw [addressed_cons, if_pos hmem]
        simpa [Message.asks, afterWant] using hp
      | release _ => simp [afterRelease] at hp
    · rw [algo, Protocol.turn_node_ne hpr] at hp
      simp only [Protocol.turn, World.react, sent_cons, Call.sentTo, if_neg (Ne.symm hpr),
        List.append_nil]
      exact ih p t hp q hq hne

end Conservation

section ExactlyOnce

variable {cfg : Config} {w : World}

theorem request_of_asks {m : Message} {t : Ticket} (h : m.asks = some t) : m = .request ⟨t⟩ := by
  cases m with
  | request x =>
    obtain rfl := Option.some.inj h
    rfl
  | reply | partyStart => cases h

theorem reply_of_answers {m : Message} {t : Ticket} (h : m.answers = some t) :
    ∃ s, m = .reply ⟨s, t⟩ := by
  cases m with
  | reply x =>
    obtain rfl := Option.some.inj h
    exact ⟨x.senderTicket, rfl⟩
  | request | partyStart => cases h

/-- Where no clock wraps, no two requests of a process carry one ticket. -/
theorem asked_nodup (h : (system cfg).Run NoWrap w) (p q : Pid) :
    ((sent w.past p q).filterMap Message.asks).Nodup := by
  rw [List.Nodup, List.pairwise_filterMap]
  refine (sent_sorted h (disciplined_of_run h) p q).imp ?_
  intro a b hab s hs t ht hst
  obtain rfl := request_of_asks hs
  obtain rfl := request_of_asks ht
  rw [hst] at hab
  exact Nat.lt_irrefl _ hab

theorem asked_le_time (h : (system cfg).Run NoWrap w) {p q : Pid} {t : Ticket}
    (ht : t ∈ (sent w.past p q).filterMap Message.asks) : t.ts.toNat ≤ time (w.node p) := by
  obtain ⟨m, hm, hask⟩ := List.mem_filterMap.mp ht
  obtain rfl := request_of_asks hask
  rw [sent_eq_addressed] at hm
  obtain ⟨pkt, hpkt, -, hmsg⟩ := mem_addressed.mp hm
  have hle := (sends_sorted h (disciplined_of_run h) p).2 pkt hpkt
  rwa [hmsg] at hle

/-- A request goes to every other process. -/
theorem asked_of_request {ok : World → Label → World → Prop} (h : (system cfg).Run ok w)
    {c : Call} (hc : c ∈ w.past) {pkt : Packet Pid Message} (hpkt : pkt ∈ c.out) {x : Request}
    (hx : pkt.msg = .request x) {q : Pid} (hq : q < cfg.worldSize) (hne : q ≠ c.proc) :
    x.requestTicket ∈ (sent w.past c.proc q).filterMap Message.asks := by
  obtain ⟨hcoh, -, hexp⟩ := explained_of_run h c hc
  have hmem : q ∈ pkt.dests := by
    cases hexp.sent hpkt with
    | answer src m y _ hy hp =>
      obtain ⟨z, -, rfl⟩ := answer_eq_some hy
      subst hp
      cases hx
    | start src m g _ _ _ _ hp =>
      subst hp
      cases hx
    | want _ _ _ hp =>
      subst hp
      rw [hcoh.myPid, hcoh.config, mem_broadcastDests]
      exact ⟨hq, hne⟩
  refine List.mem_filterMap.mpr ⟨.request x, ?_, rfl⟩
  exact mem_sent.mpr ⟨c, hc, rfl, mem_addressed.mpr ⟨pkt, hpkt, hmem, hx⟩⟩

/-- A waiting process has marked every peer whose reply to its pending request it
has handled. -/
def WaitersMarked (cfg : Config) (w : World) : Prop :=
  ∀ p t, (algo w p).currentState = .waitingForReplies → (algo w p).pendingReqTicket = some t →
    ∀ q < cfg.worldSize, t ∈ (got w.past q p).filterMap Message.answers →
    (algo w p).replyTracker[q.toNat]? = some true

theorem WaitersMarked.hear {src dst : Pid} {env : Env} {m : Message} {rest : List Message}
    (hr : (system cfg).Run NoWrap w) (ih : WaitersMarked cfg w) :
    WaitersMarked cfg ((system cfg).hear w src dst env m rest) := by
  intro p t hw hp q hq hgot
  have hs := Sound.of_run hr
  have hheard := Runtime.onMsg_heard (w.node dst) env src m (hs.notReady dst)
  simp only [Protocol.hear, World.react, got_cons, World.consume_past, Call.gotFrom,
    List.filterMap_append, List.mem_append] at hgot
  by_cases hpd : p = dst
  · subst hpd
    rw [algo, Protocol.hear_node_self, system_onMsg] at hw hp ⊢
    have hwait := heard_waiting hheard hw
    have hold := (heard_pending hheard hp).2.1
    have hlen : q.toNat < (algo w p).replyTracker.length := by
      rw [(hs.coherent p).length]
      exact UInt32.lt_iff_toNat_lt.mp hq
    apply heard_marks hheard hwait hp hlen
    rcases hgot with hgot | hgot
    · exact Or.inl (ih p t hwait hold q hq hgot)
    · split at hgot
      · rename_i hsrc
        obtain ⟨x, hx, hxt⟩ := List.mem_filterMap.mp hgot
        rw [List.mem_singleton.mp hx] at hxt
        exact Or.inr ⟨congrArg UInt32.toNat hsrc.2.symm, hxt⟩
      · cases hgot
  · rw [algo, Protocol.hear_node_ne hpd] at hw hp ⊢
    simp only [Ne.symm hpd, false_and, if_false, List.filterMap_nil, List.not_mem_nil,
      or_false] at hgot
    exact ih p t hw hp q hq hgot

theorem WaitersMarked.turn {r : Pid} {env : Env} (hr : (system cfg).Run NoWrap w)
    (ih : WaitersMarked cfg w)
    (htime : time (w.node r) ≤ time (((system cfg).turn w r env).node r)) :
    WaitersMarked cfg ((system cfg).turn w r env) := by
  intro p t hw hp q hq hgot
  have hpolled := ((Sound.of_run hr).inStep r).onPoll env
  simp only [Protocol.turn, World.react, got_cons, Call.gotFrom, List.append_nil] at hgot
  by_cases hpr : p = r
  · subst hpr
    rw [algo, Protocol.turn_node_self, system_onPoll] at hw hp ⊢
    rw [Protocol.turn_node_self, system_onPoll] at htime
    generalize Runtime.onPoll (w.node p) env = res at hpolled hw hp htime ⊢
    cases hpolled with
    | nothing => exact ih p t hw hp q hq hgot
    | want _ =>
      -- The new ticket is later than every request made before.
      have hle := asked_le_time hr (p := p) (q := q) (t := t) (by
        rw [asked_eq_replied hr]
        exact List.mem_append_left _ (List.mem_append_left _ hgot))
      obtain rfl := Option.some.inj hp
      have htick := toNat_tick (w.node p).algorithm.lamportClock
      have hlt := (w.node p).algorithm.lamportClock.time.toNat_lt
      change time (w.node p) ≤ (w.node p).algorithm.lamportClock.tick.time.toNat at htime
      change (w.node p).algorithm.lamportClock.tick.time.toNat ≤ time (w.node p) at hle
      dsimp only [time] at hle htime
      omega
    | release _ => simp [afterRelease] at hp
  · rw [algo, Protocol.turn_node_ne hpr] at hw hp ⊢
    exact ih p t hw hp q hq hgot

theorem waiting_marks (h : (system cfg).Run NoWrap w) : WaitersMarked cfg w := by
  refine Protocol.Run.invariant (I := WaitersMarked cfg) ?_ ?_ ?_ h
  · intro p t hw
    simp [algo, Protocol.initial, system, LamportQueueAlgorithm.create] at hw
  · exact fun w src dst env m rest hr ih _ _ => ih.hear hr
  · exact fun w r env hr ih _ hok => ih.turn hr hok

/-- Exactly one reply per request and peer: a request is on its way, or its reply
is, or its reply has been handled, and no two of these. A waiting process that
has not marked a peer still has its request or the reply on the way. -/
theorem one_reply_per_request (h : (system cfg).Run NoWrap w) :
    (∀ c ∈ w.past, ∀ pkt ∈ c.out, ∀ x, pkt.msg = .request x →
      ∀ q < cfg.worldSize, q ≠ c.proc →
      ((w.chan c.proc q).filterMap Message.asks).count x.requestTicket +
        ((w.chan q c.proc).filterMap Message.answers).count x.requestTicket +
        ((got w.past q c.proc).filterMap Message.answers).count x.requestTicket = 1) ∧
    ∀ p q t, (algo w p).currentState = .waitingForReplies →
      (algo w p).pendingReqTicket = some t → (algo w p).replyTracker[q.toNat]? = some false →
      .request ⟨t⟩ ∈ w.chan p q ∨ ∃ s, .reply ⟨s, t⟩ ∈ w.chan q p := by
  constructor
  · intro c hc pkt hpkt x hx q hq hne
    have hmem := asked_of_request h hc hpkt hx hq hne
    have hone := List.count_eq_one_of_mem (asked_nodup h c.proc q) hmem
    rw [asked_eq_replied h, List.count_append, List.count_append] at hone
    omega
  · intro p q t hw hp hfalse
    have hs := Sound.of_run h
    have hq : q < cfg.worldSize := by
      obtain ⟨hlt, -⟩ := List.getElem?_eq_some_iff.mp hfalse
      rw [(hs.coherent p).length] at hlt
      exact UInt32.lt_iff_toNat_lt.mpr hlt
    have hne : q ≠ p := by
      intro heq
      subst heq
      have hself := (hs.coherent q).self hw hq
      rw [hself] at hfalse
      cases hfalse
    have hmem := List.mem_of_getLast? (pending_asked_last h p t hp q hq hne)
    rw [asked_eq_replied h, List.append_assoc] at hmem
    rcases List.mem_append.mp hmem with hgot | hmem
    · have hmark := waiting_marks h p t hw hp q hq hgot
      rw [hmark] at hfalse
      cases hfalse
    · rcases List.mem_append.mp hmem with hback | hout
      · obtain ⟨m, hm, hans⟩ := List.mem_filterMap.mp hback
        obtain ⟨s, rfl⟩ := reply_of_answers hans
        exact Or.inr ⟨s, hm⟩
      · obtain ⟨m, hm, hask⟩ := List.mem_filterMap.mp hout
        obtain rfl := request_of_asks hask
        exact Or.inl hm

/-- A waiting hare whose single peer has answered. -/
theorem one_reply_per_request_pair :
    ∃ w, (system (haresOnly 2 2)).Run NoWrap w ∧ (algo w 0).currentState = .waitingForReplies ∧
      (algo w 0).pendingReqTicket = some ⟨0, 1⟩ ∧
      (.request ⟨⟨0, 1⟩⟩ ∈ w.chan 0 1 ∨ ∃ s, .reply ⟨s, ⟨0, 1⟩⟩ ∈ w.chan 1 0) := by
  obtain ⟨w, hrun, hw, hp, hmark⟩ := Protocol.exists_of_exec (system (haresOnly 2 2)) NoWrap
    [want 0, hand 0 1]
    (fun w => (algo w 0).currentState = .waitingForReplies ∧
      (algo w 0).pendingReqTicket = some ⟨0, 1⟩ ∧
      (algo w 0).replyTracker[(1 : Pid).toNat]? = some false) (by decide +kernel)
  exact ⟨w, hrun, hw, hp, (one_reply_per_request hrun).2 0 1 _ hw hp hmark⟩

end ExactlyOnce

/-- A waiting process is handed a reply only when no other reply is on its way
from the same sender and no request of its own on the way to that sender. -/
def LastReplies (w : World) (l : Label) (_ : World) : Prop :=
  match l with
  | .deliver src dst _ => ∀ m ∈ (w.chan src dst).head?, m.answers ≠ none →
      (algo w dst).currentState = .waitingForReplies →
      (∀ x ∈ w.chan dst src, x.asks = none) ∧ ∀ x ∈ (w.chan src dst).tail, x.answers = none
  | .poll _ _ => True

instance : ∀ w l w', Decidable (LastReplies w l w')
  | w, .deliver src dst _, _ => inferInstanceAs (Decidable (∀ m ∈ (w.chan src dst).head?,
      m.answers ≠ none → (algo w dst).currentState = .waitingForReplies →
      (∀ x ∈ w.chan dst src, x.asks = none) ∧ ∀ x ∈ (w.chan src dst).tail, x.answers = none))
  | _, .poll _ _, _ => isTrue trivial

section Acknowledgement

variable {cfg : Config} {w w' : World} {ok : World → Label → World → Prop}
variable {src dst : Pid} {env : Env} {m : Message} {rest : List Message} {t : Ticket}

/-- The last reply between two processes answers the pending request. -/
theorem last_reply_answers (h : (system cfg).Run ok w) (hchan : w.chan src dst = m :: rest)
    (hl : LastReplies w (.deliver src dst env) w')
    (hw : (algo w dst).currentState = .waitingForReplies) (hans : m.answers = some t) :
    (algo w dst).pendingReqTicket = some t ∧
      t ∈ (got w.past dst src).filterMap Message.asks := by
  have hs := Sound.of_run h
  have hm := hs.proper src dst m (by simp [hchan])
  obtain ⟨hask, hreply⟩ := hl m (by simp [hchan]) (by simp [hans]) hw
  rw [hchan, List.tail_cons] at hreply
  obtain ⟨u, hu⟩ := Option.ne_none_iff_exists'.mp ((hs.coherent dst).pending.mpr (Or.inl hw))
  have hlast := pending_asked_last h dst u hu src hm.src_live hm.ne
  have hnone := List.filterMap_eq_nil_iff.mpr hask
  have hmem := List.mem_of_getLast? hlast
  rw [sent_eq_got_append_chan h, List.filterMap_append, hnone, List.append_nil] at hmem
  rw [asked_eq_replied h, hchan, List.filterMap_cons_some hans,
    List.filterMap_eq_nil_iff.mpr hreply, hnone, List.append_nil, List.getLast?_append,
    List.getLast?_singleton, Option.some_or] at hlast
  obtain rfl := Option.some.inj hlast
  exact ⟨hu, hmem⟩

/-- Where no clock wraps, the replies to the pending request are exactly those
with no other reply or request between the two processes. -/
theorem lastReplies_iff (h : (system cfg).Run NoWrap w) (l : Label) :
    LastReplies w l w' ↔ OwnReplies w l := by
  cases l with
  | poll p env => exact Iff.rfl
  | deliver src dst env =>
    constructor
    · intro hl m hm hw t ht
      obtain ⟨rest, hchan⟩ := List.head?_eq_some_iff.mp hm
      exact (last_reply_answers h hchan hl hw ht).1
    · intro ho m hm hans hw
      obtain ⟨rest, hchan⟩ := List.head?_eq_some_iff.mp hm
      obtain ⟨t, ht⟩ := Option.ne_none_iff_exists'.mp hans
      have hpend := ho m hm hw t ht
      have hp := (Sound.of_run h).proper src dst m (by simp [hchan])
      have hlast := pending_asked_last h dst t hpend src hp.src_live hp.ne
      have hnodup := asked_nodup h dst src
      rw [asked_eq_replied h, hchan, List.filterMap_cons_some ht, List.append_assoc,
        List.cons_append] at hlast hnodup
      have hnil : rest.filterMap Message.answers ++ (w.chan dst src).filterMap Message.asks =
          [] := by
        by_contra hne
        rw [List.getLast?_append_of_ne_nil _ (List.cons_ne_nil _ _),
          List.getLast?_cons_of_ne_nil hne] at hlast
        have hnew := (List.nodup_cons.mp (List.nodup_append.mp hnodup).2.1).1
        exact hnew (List.mem_of_getLast? hlast)
      obtain ⟨hreply, hask⟩ := List.append_eq_nil_iff.mp hnil
      rw [hchan, List.tail_cons]
      exact ⟨List.filterMap_eq_nil_iff.mp hask, List.filterMap_eq_nil_iff.mp hreply⟩

/-- A marked peer has handled the pending request. -/
theorem marks_acknowledge (h : (system cfg).Run LastReplies w) :
    ∀ p t, (algo w p).pendingReqTicket = some t → ∀ q < cfg.worldSize, q ≠ p →
      (algo w p).replyTracker[q.toNat]? = some true →
      t ∈ (got w.past p q).filterMap Message.asks := by
  refine Protocol.Run.invariant (I := fun w => ∀ p t, (algo w p).pendingReqTicket = some t →
    ∀ q < cfg.worldSize, q ≠ p → (algo w p).replyTracker[q.toNat]? = some true →
    t ∈ (got w.past p q).filterMap Message.asks) ?_ ?_ ?_ h
  · intro p t hp
    simp [algo, Protocol.initial, system, LamportQueueAlgorithm.create] at hp
  · intro w src dst env m rest hr ih hchan hok p t hp q hq hne hmark
    have hheard := Runtime.onMsg_heard (w.node dst) env src m ((Sound.of_run hr).notReady dst)
    simp only [Protocol.hear, World.react, got_cons, World.consume_past, List.filterMap_append]
    apply List.mem_append_left
    by_cases hpd : p = dst
    · subst hpd
      rw [algo, Protocol.hear_node_self, system_onMsg] at hp hmark
      obtain ⟨-, hold, htracker⟩ := heard_pending hheard hp
      rw [htracker] at hmark
      split at hmark
      · rename_i hcount
        by_cases hsrc : src = q
        · subst hsrc
          obtain ⟨t', ht'⟩ := Option.ne_none_iff_exists'.mp hcount.2
          obtain ⟨hp', hgot⟩ := last_reply_answers hr hchan hok hcount.1 ht'
          obtain rfl := Option.some.inj (hold.symm.trans hp')
          exact hgot
        · rw [List.getElem?_set_ne (fun heq => hsrc (UInt32.toNat_inj.mp heq))] at hmark
          exact ih p t hold q hq hne hmark
      · exact ih p t hold q hq hne hmark
    · rw [algo, Protocol.hear_node_ne hpd] at hp hmark
      exact ih p t hp q hq hne hmark
  · intro w r env hr ih _ _ p t hp q hq hne hmark
    have hs := Sound.of_run hr
    have hpolled := (hs.inStep r).onPoll env
    simp only [Protocol.turn, World.react, got_cons, Call.gotFrom, List.append_nil]
    by_cases hpr : p = r
    · subst hpr
      rw [algo, Protocol.turn_node_self, system_onPoll] at hp hmark
      have hpid := (hs.coherent p).myPid
      generalize Runtime.onPoll (w.node p) env = res at hpolled hp hmark
      cases hpolled with
      | nothing => exact ih p t hp q hq hne hmark
      | want _ =>
        rw [afterWant, hpid] at hmark
        rw [List.getElem?_set_ne (fun heq => hne (UInt32.toNat_inj.mp heq).symm),
          List.getElem?_replicate] at hmark
        split at hmark <;> cases hmark
      | release _ => simp [afterRelease] at hp
    · rw [algo, Protocol.turn_node_ne hpr] at hp hmark
      exact ih p t hp q hq hne hmark

theorem counted_replies (h : (system cfg).Run LastReplies w) :
    ∀ c ∈ w.past, ∀ q x, c.heard = some (q, .reply x) →
      c.before.algorithm.currentState = .waitingForReplies →
      c.before.algorithm.pendingReqTicket = some x.requestTicket := by
  refine Protocol.Run.invariant (I := fun w => ∀ c ∈ w.past, ∀ q x,
    c.heard = some (q, .reply x) → c.before.algorithm.currentState = .waitingForReplies →
    c.before.algorithm.pendingReqTicket = some x.requestTicket)
    (by simp [Protocol.initial]) ?_ ?_ h
  · intro w src dst env m rest hr ih hchan hok c hc q x hheard hw
    rcases List.mem_cons.mp hc with rfl | hc
    · obtain ⟨-, rfl⟩ := Prod.mk.inj (Option.some.inj hheard)
      exact (last_reply_answers hr hchan hok hw rfl).1
    · exact ih c hc q x hheard hw
  · intro w p env hr ih _ _ c hc q x hheard hw
    rcases List.mem_cons.mp hc with rfl | hc
    · cases hheard
    · exact ih c hc q x hheard hw

/-- A process that hears a request answers it in the same call. -/
theorem Explained.replies {c : Call} (h : Explained cfg c) {p : Pid}
    (hh : c.heard = some (p, .request ⟨t⟩)) : ∃ s, ⟨[p], .reply ⟨s, t⟩⟩ ∈ c.out := by
  cases h with
  | heard src m env hh' _ hheard =>
    obtain ⟨rfl, rfl⟩ := Prod.mk.inj (Option.some.inj (hh.symm.trans hh'))
    generalize hres : (c.after, c.out) = res at hheard
    obtain ⟨-, hout⟩ := Prod.mk.inj hres
    rw [hout]
    cases hheard with
    | stay => exact ⟨_, List.mem_singleton.mpr rfl⟩
    | start => exact ⟨_, List.mem_append_left _ (List.mem_singleton.mpr rfl)⟩
  | polled env hh' _ _ =>
    rw [hh'] at hh
    cases hh

/-- Replies acknowledge the current request: a queued process has had its pending
request handled and answered by every other process, and every reply it has
counted answered the request pending then. -/
theorem queued_is_acknowledged (h : (system cfg).Run LastReplies w) :
    (∀ p t, (algo w p).currentState = .queued → (algo w p).pendingReqTicket = some t →
      ∀ q < cfg.worldSize, q ≠ p → ∃ c ∈ w.past, c.proc = q ∧
        c.heard = some (p, .request ⟨t⟩) ∧ ∃ s, ⟨[p], .reply ⟨s, t⟩⟩ ∈ c.out) ∧
    ∀ c ∈ w.past, ∀ q x, c.heard = some (q, .reply x) →
      c.before.algorithm.currentState = .waitingForReplies →
      c.before.algorithm.pendingReqTicket = some x.requestTicket := by
  refine ⟨?_, counted_replies h⟩
  intro p t hq hp q hlive hne
  have hc := (Sound.of_run h).coherent p
  have hmark := getElem?_allReplies (hc.complete hq) (i := q.toNat) (by
    rw [hc.length]
    exact UInt32.lt_iff_toNat_lt.mp hlive)
  have hgot := marks_acknowledge h p t hp q hlive hne hmark
  obtain ⟨m, hm, hask⟩ := List.mem_filterMap.mp hgot
  obtain rfl := request_of_asks hask
  obtain ⟨c, hcall, hproc, hheard⟩ := mem_got.mp hm
  exact ⟨c, hcall, hproc, hheard, (explained_of_run h c hcall).2.2.replies hheard⟩

/-- A hare waits for its single peer. -/
theorem queued_is_acknowledged_pair :
    ∃ w, (system (haresOnly 2 2)).Run LastReplies w ∧ (algo w 0).currentState = .queued ∧
      (algo w 0).pendingReqTicket = some ⟨0, 1⟩ ∧
      ∃ c ∈ w.past, c.proc = 1 ∧ c.heard = some (0, .request ⟨⟨0, 1⟩⟩) ∧
        ∃ s, ⟨[0], .reply ⟨s, ⟨0, 1⟩⟩⟩ ∈ c.out := by
  obtain ⟨w, hrun, hq, hp⟩ := Protocol.exists_of_exec (system (haresOnly 2 2)) LastReplies
    [want 0, hand 0 1, hand 1 0]
    (fun w => (algo w 0).currentState = .queued ∧
      (algo w 0).pendingReqTicket = some ⟨0, 1⟩) (by decide +kernel)
  exact ⟨w, hrun, hq, hp, (queued_is_acknowledged hrun).1 0 _ hq hp 1 (by decide) (by decide)⟩

/-- The reply of process 1 to the first request of process 2 counts for the
second, which is still on its way. -/
def staleReplyRun : List Label :=
  [want 2, want 0, hand 0 1, hand 1 0, hand 2 0, want 1, hand 0 2, hand 2 0, hand 1 2, hand 0 2,
    hand 0 2, release 2, want 2, hand 2 0, hand 0 2, hand 2 1, hand 1 2]

theorem queued_unacknowledged :
    ¬ ∀ cfg, Accepted cfg → ∀ w, (system cfg).Reachable w → ∀ p t,
      (algo w p).currentState = .queued → (algo w p).pendingReqTicket = some t →
      ∀ q < cfg.worldSize, q ≠ p → ∃ c ∈ w.past, c.proc = q ∧
        c.heard = some (p, .request ⟨t⟩) := by
  intro h
  obtain ⟨w, hrun, hq, hp, hnone⟩ := Protocol.exists_of_exec (system (haresOnly 3 2))
    (fun _ _ _ => True) staleReplyRun
    (fun w => (algo w 2).currentState = .queued ∧
      (algo w 2).pendingReqTicket = some ⟨2, 10⟩ ∧
      ∀ c ∈ w.past, c.proc = 1 → c.heard ≠ some (2, .request ⟨⟨2, 10⟩⟩)) (by decide +kernel)
  obtain ⟨c, hc, hproc, hheard⟩ := h _ (haresOnly_accepted (by decide) (by decide)) w hrun 2 _ hq
    hp 1 (by decide) (by decide)
  exact hnone c hc hproc hheard

end Acknowledgement

end HaresBears
