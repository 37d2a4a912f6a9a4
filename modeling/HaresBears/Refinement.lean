import HaresBears.AdmissionSafety
import HaresBears.ClockRules

/-!
The system refines group admission. Where no clock wraps, each delivery is the
hearing of a message, possibly followed by the entry into the queue and by the
formation of a party, and each poll is a want, a release or no event at all.
-/
namespace HaresBears

open FifoNetwork LamportQueueAlgorithm

abbrev Admission := GroupAdmission.State Pid

def phaseOf : AppState → GroupAdmission.Phase
  | .idle => .idle
  | .waitingForReplies => .waiting
  | .queued => .queued
  | .inParty => .inParty

def abstractMsg : Message → GroupAdmission.Msg Pid
  | .request m => .request m.requestTicket.ts.toNat
  | .reply m => .reply m.senderTicket.ts.toNat m.requestTicket.ts.toNat
  | .partyStart m => .start m.senderTicket.ts.toNat m.participants

@[simp] theorem abstractMsg_ts (m : Message) : (abstractMsg m).ts = stamp m := by
  cases m <;> rfl

def times (q : RequestQueue) (r : Pid) : Option ℕ := (q.lookup r).map (fun t => t.ts.toNat)

/-- The queue on which a call runs `Recompute`. -/
def queueAt (c : Call) : RequestQueue :=
  match c.heard with
  | some (src, m) => (c.before.algorithm.absorb src m).globalQueue
  | none => c.before.algorithm.globalQueue

def Forms (c : Call) (m : PartyStart) : Prop := ∃ pkt ∈ c.out, pkt.msg = .partyStart m

/-- A party start on its way has been broadcast by its sender. -/
theorem mem_past_of_start {cfg : Config} {w : World} {ok : World → Label → World → Prop}
    (hr : (system cfg).Run ok w) {src dst : Pid} {m : PartyStart}
    (hm : .partyStart m ∈ w.chan src dst) : ∃ c ∈ w.past, c.proc = src ∧ Forms c m := by
  have hsent : .partyStart m ∈ sent w.past src dst := by
    rw [sent_eq_got_append_chan hr]
    exact List.mem_append_right _ hm
  obtain ⟨c, hc, hproc, ha⟩ := mem_sent.mp hsent
  obtain ⟨pkt, hpkt, -, hmsg⟩ := mem_addressed.mp ha
  exact ⟨c, hc, hproc, pkt, hpkt, hmsg⟩

def formation (c : Call) (m : PartyStart) : GroupAdmission.Formation Pid :=
  ⟨c.proc, m.senderTicket.ts.toNat, m.participants, times (queueAt c)⟩

def formedBy (past : List Call) (f : GroupAdmission.Formation Pid) : Prop :=
  ∃ c ∈ past, ∃ m, Forms c m ∧ f = formation c m

def view (node : Pid → LamportQueueAlgorithm) (chan : Pid → Pid → List Message)
    (formed : GroupAdmission.Formation Pid → Prop) : Admission where
  phase p := phaseOf (node p).currentState
  clock p := (node p).lamportClock.time.toNat
  ticket p := (node p).pendingReqTicket.map (fun t => t.ts.toNat)
  replica p r := times (node p).globalQueue r
  marked p q := (node p).replyTracker[q.toNat]? = some true
  flight q p x := ∃ m ∈ chan q p, abstractMsg m = x
  formed := formed

def abstraction (w : World) : Admission := view (algo w) w.chan (formedBy w.past)

/-- The view in the middle of a reaction of `p`, which has come to the state `a`
and has sent `out` so far. -/
def viewAfter (w : World) (p : Pid) (a : LamportQueueAlgorithm) (out : Sends)
    (formed : GroupAdmission.Formation Pid → Prop) : Admission :=
  view (Function.update (algo w) p a)
    (fun x y => w.chan x y ++ if x = p then addressed y out else []) formed

theorem abstraction_react (w : World) (p : Pid) (heard : Option (Pid × Message))
    (res : Runtime × Sends) :
    abstraction (w.react p heard res) =
      viewAfter w p res.1.algorithm res.2 (formedBy (w.react p heard res).past) := by
  have hnode : algo (w.react p heard res) = Function.update (algo w) p res.1.algorithm := by
    funext q
    by_cases hq : q = p
    · subst hq
      simp only [algo, World.react_node_self, Function.update_self]
    · simp only [algo, World.react_node_ne _ _ _ hq, Function.update_of_ne hq]
  unfold abstraction viewAfter
  rw [hnode]
  rfl

theorem viewAfter_self (w : World) (p : Pid) :
    viewAfter w p (algo w p) [] (formedBy w.past) = abstraction w := by
  simp [viewAfter, abstraction, view]

structure Shows (s : Admission) (p : Pid) (a : LamportQueueAlgorithm) : Prop where
  phase : s.phase p = phaseOf a.currentState
  clock : s.clock p = a.lamportClock.time.toNat
  ticket : s.ticket p = a.pendingReqTicket.map (fun t => t.ts.toNat)
  replica : ∀ r, s.replica p r = times a.globalQueue r
  marked : ∀ q, s.marked p q ↔ a.replyTracker[q.toNat]? = some true

theorem shows_view (node : Pid → LamportQueueAlgorithm) (chan : Pid → Pid → List Message)
    (formed : GroupAdmission.Formation Pid → Prop) (p : Pid) :
    Shows (view node chan formed) p (node p) :=
  ⟨rfl, rfl, rfl, fun _ => rfl, fun _ => Iff.rfl⟩

/-- Two views that show the same processes and agree on the rest are equal. -/
theorem Shows.ext {s s' : Admission} {node : Pid → LamportQueueAlgorithm}
    (h : ∀ x, Shows s x (node x)) (h' : ∀ x, Shows s' x (node x))
    (hflight : ∀ x y m, s.flight x y m ↔ s'.flight x y m)
    (hformed : ∀ f, s.formed f ↔ s'.formed f) : s = s' := by
  ext x y
  · rw [(h x).phase, (h' x).phase]
  · rw [(h x).clock, (h' x).clock]
  · rw [(h x).ticket, (h' x).ticket]
  · rw [(h x).replica, (h' x).replica]
  · rw [(h x).marked, (h' x).marked]
  · exact hflight x y _
  · exact hformed x

/-- An event changes what is shown of its own process only. -/
theorem Shows.next_other {s : Admission} {p : Pid} {a : LamportQueueAlgorithm}
    {e : GroupAdmission.Event Pid} (h : Shows s p a) (live : Pid → Prop)
    (hp : p ≠ GroupAdmission.State.Event.actor e) : Shows (s.next live e) p a := by
  obtain ⟨hphase, hclock, hticket, hreplica, hmarked⟩ := GroupAdmission.State.next_frame live s hp
  refine ⟨hphase.trans h.phase, hclock.trans h.clock, hticket.trans h.ticket, ?_, ?_⟩
  · intro r
    rw [hreplica, h.replica]
  · intro q
    rw [hmarked, h.marked]

theorem shows_viewAfter (w : World) (p : Pid) (a : LamportQueueAlgorithm) (out : Sends)
    (formed : GroupAdmission.Formation Pid → Prop) (x : Pid) :
    Shows (viewAfter w p a out formed) x (Function.update (algo w) p a x) :=
  shows_view ..

section Events

variable {cfg : Config} {w : World} {p src : Pid} {a : LamportQueueAlgorithm} {out : Sends}
variable {formed : GroupAdmission.Formation Pid → Prop} {g : List Pid}

abbrev live (cfg : Config) (p : Pid) : Prop := p < cfg.worldSize

/-- An event of `p` leads from view to view if it does so at `p` and on the channels. -/
theorem next_eq_viewAfter {v : World} {b : LamportQueueAlgorithm} {out' : Sends}
    {formed' : GroupAdmission.Formation Pid → Prop} {e : GroupAdmission.Event Pid}
    (he : GroupAdmission.State.Event.actor e = p) (hv : algo v = algo w)
    (hself : Shows ((viewAfter w p a out formed).next (live cfg) e) p b)
    (hflight : ∀ x y m, ((viewAfter w p a out formed).next (live cfg) e).flight x y m ↔
      (viewAfter v p b out' formed').flight x y m)
    (hformed : ∀ f, ((viewAfter w p a out formed).next (live cfg) e).formed f ↔ formed' f) :
    (viewAfter w p a out formed).next (live cfg) e = viewAfter v p b out' formed' := by
  refine Shows.ext (fun x => ?_) (fun x => shows_viewAfter v p b out' formed' x) hflight hformed
  by_cases hx : x = p
  · subst hx
    rwa [Function.update_self]
  · have hold := shows_viewAfter w p a out formed x
    rw [Function.update_of_ne hx] at hold ⊢
    rw [hv]
    exact hold.next_other _ (he ▸ hx)

/-- What a reaction of `p` shows of `p` itself. -/
theorem shows_self : Shows (viewAfter w p a out formed) p a := by
  have h := shows_viewAfter w p a out formed p
  rwa [Function.update_self] at h

theorem leads_of_first {s : Admission} (hrep : s.replica p = times a.globalQueue)
    (hf : a.globalQueue.getFirstPid = some p) : s.Leads p := by
  obtain ⟨t, ht, hmin⟩ := RequestQueue.getFirstPid_eq_some.mp hf
  refine ⟨t.ts.toNat, by simp [hrep, times, ht], ?_⟩
  intro q t' hq
  rw [hrep] at hq
  obtain ⟨u, hu, rfl⟩ := Option.map_eq_some_iff.mp hq
  have hle := Ticket.le_iff.mp (hmin q u hu)
  rw [RequestQueue.lookup_pid ht, RequestQueue.lookup_pid hu] at hle
  unfold GroupAdmission.Earlier
  rw [UInt32.lt_iff_toNat_lt]
  omega

theorem enabled_settle (hc : Coherent cfg p a) (hw : a.currentState = .waitingForReplies)
    (hall : a.allRepliesReceived = true) {c : ℕ} (hlt : a.lamportClock.time.toNat < c) :
    (viewAfter w p a out formed).Enabled (live cfg) (.settle p c) := by
  refine ⟨?_, ?_, ?_⟩
  · simp [viewAfter, view, hw, phaseOf]
  · intro q hq
    simp only [viewAfter, view, Function.update_self]
    apply getElem?_allReplies hall
    rw [hc.length]
    exact UInt32.lt_iff_toNat_lt.mp hq
  · simpa [viewAfter, view] using hlt

theorem next_settle (cfg : Config) (hw : a.currentState = .waitingForReplies)
    (hall : a.allRepliesReceived = true) :
    (viewAfter w p a out formed).next (live cfg) (.settle p a.settle.lamportClock.time.toNat) =
      viewAfter w p a.settle out formed := by
  have hs : a.settle = { a with lamportClock := a.lamportClock.tick, currentState := .queued } := by
    simp [settle, hw, hall]
  rw [hs]
  have hself : Shows (viewAfter w p a out formed) p a := shows_self
  refine next_eq_viewAfter rfl rfl ⟨?_, ?_, ?_, ?_, ?_⟩ (fun _ _ _ => Iff.rfl) (fun _ => Iff.rfl)
  · exact if_pos rfl
  · exact if_pos rfl
  · exact hself.ticket
  · exact hself.replica
  · exact hself.marked

theorem enabled_form (hcfg : ExactConfig cfg) (hc : Coherent cfg p a) (hr : a.Ready g) {c : ℕ}
    (hlt : a.lamportClock.time.toNat < c) :
    (viewAfter w p a out formed).Enabled (live cfg) (.form p g c) := by
  have hfirst := hr.first
  have hmem := hr.mem
  rw [hc.myPid] at hfirst hmem
  refine ⟨?_, ?_, hmem, ?_, ?_⟩
  · simp [viewAfter, view, hr.queued, phaseOf]
  · exact leads_of_first (a := a) (by simp [viewAfter, view]) hfirst
  · intro r hrg
    have hvalid := tryBuildParty_valid (hc.config ▸ hcfg) (hc.config ▸ hc.policy) hfirst hr.group
    obtain ⟨t, ht⟩ := Option.isSome_iff_exists.mp (hvalid.drawn r hrg)
    simp [viewAfter, view, times, ht]
  · simpa [viewAfter, view] using hlt

theorem times_removeAll (q : RequestQueue) (g : List Pid) (r : Pid) :
    times (q.removeAll g) r = if r ∈ g then none else times q r := by
  unfold times
  rw [RequestQueue.lookup_removeAll]
  split <;> rfl

theorem times_insert (q : RequestQueue) (t : Ticket) (r : Pid) :
    times (q.insert t) r = if r = t.pid then some t.ts.toNat else times q r := by
  unfold times
  rw [RequestQueue.lookup_insert]
  split <;> rfl

theorem not_marked_replicate (n i : ℕ) : ¬ (List.replicate n false)[i]? = some true := by
  simp [List.getElem?_replicate]

/-- One more packet on the channels of `p`. -/
theorem flight_send (chan : Pid → Pid → List Message) (p x y : Pid) (out : Sends)
    (pkt : Packet Pid Message) (z : GroupAdmission.Msg Pid) :
    (∃ m ∈ chan x y ++ (if x = p then addressed y (out ++ [pkt]) else []), abstractMsg m = z) ↔
      (∃ m ∈ chan x y ++ (if x = p then addressed y out else []), abstractMsg m = z) ∨
        x = p ∧ y ∈ pkt.dests ∧ z = abstractMsg pkt.msg := by
  by_cases hx : x = p
  · simp only [hx, if_true, addressed_append, List.mem_append, mem_addressed, List.mem_singleton]
    grind
  · simp [hx]

/-- A broadcast puts its message on the way to all live processes but the sender. -/
theorem flight_broadcast (hc : Coherent cfg p a) {msg : Message}
    {formed' : GroupAdmission.Formation Pid → Prop} {a' : LamportQueueAlgorithm} (x y : Pid)
    (z : GroupAdmission.Msg Pid) :
    (viewAfter w p a' (out ++ [⟨broadcastDests a.myPid a.cfg.worldSize, msg⟩]) formed').flight
        x y z ↔
      (viewAfter w p a out formed).flight x y z ∨
        x = p ∧ y ≠ p ∧ live cfg y ∧ z = abstractMsg msg := by
  simp only [viewAfter, view]
  rw [flight_send, mem_broadcastDests, hc.myPid, hc.config]
  simp only [live, and_assoc, and_left_comm]

theorem next_form (hc : Coherent cfg p a) :
    (viewAfter w p a out formed).next (live cfg)
        (.form p g (a.afterStart g).lamportClock.time.toNat) =
      viewAfter w p (a.afterStart g)
        (out ++ [⟨broadcastDests a.myPid a.cfg.worldSize, .partyStart (a.startOf g)⟩])
        (fun f => formed f ∨ f = ⟨p, (a.afterStart g).lamportClock.time.toNat, g,
          times a.globalQueue⟩) := by
  have hself : Shows (viewAfter w p a out formed) p a := shows_self
  refine next_eq_viewAfter rfl rfl ⟨?_, ?_, ?_, ?_, ?_⟩ ?_ ?_
  · exact if_pos rfl
  · exact if_pos rfl
  · exact if_pos rfl
  · intro r
    simp [GroupAdmission.State.next, hself.replica r, afterStart, times_removeAll]
  · intro q
    simp [GroupAdmission.State.next, afterStart, not_marked_replicate]
  · intro x y m
    rw [flight_broadcast hc]
    rfl
  · intro f
    simp [GroupAdmission.State.next, viewAfter, view]

theorem marked_set {l : List Bool} {p : Pid} (hp : p.toNat < l.length) (q : Pid) :
    (l.set p.toNat true)[q.toNat]? = some true ↔ l[q.toNat]? = some true ∨ q = p := by
  rw [List.getElem?_set]
  by_cases hq : q = p
  · simp [hq, hp]
  · have hne : p.toNat ≠ q.toNat := fun h => hq (UInt32.toNat_inj.mp h).symm
    simp [hne, hq]

theorem next_want (hc : Coherent cfg p a) (hp : p < cfg.worldSize) :
    (viewAfter w p a out formed).next (live cfg) (.want p a.afterWant.lamportClock.time.toNat) =
      viewAfter w p a.afterWant
        (out ++ [⟨broadcastDests a.myPid a.cfg.worldSize,
          .request ⟨⟨a.myPid, a.lamportClock.tick.now⟩⟩⟩]) formed := by
  have hself : Shows (viewAfter w p a out formed) p a := shows_self
  refine next_eq_viewAfter rfl rfl ⟨?_, ?_, ?_, ?_, ?_⟩ ?_ (fun _ => Iff.rfl)
  · exact if_pos rfl
  · exact if_pos rfl
  · exact if_pos rfl
  · intro r
    simp [GroupAdmission.State.next, hself.replica r, afterWant, times_insert, hc.myPid,
      LamportClock.now]
  · intro q
    have hlen : p.toNat < (List.replicate cfg.worldSize.toNat false).length := by
      simpa using UInt32.lt_iff_toNat_lt.mp hp
    simp only [GroupAdmission.State.next, if_true, afterWant, hc.myPid, hc.config,
      marked_set hlen, not_marked_replicate, false_or]
  · intro x y m
    rw [flight_broadcast hc]
    rfl

theorem next_release (cfg : Config) :
    (viewAfter w p a out formed).next (live cfg)
        (.release p a.afterRelease.lamportClock.time.toNat) =
      viewAfter w p a.afterRelease out formed := by
  have hself : Shows (viewAfter w p a out formed) p a := shows_self
  refine next_eq_viewAfter rfl rfl ⟨?_, ?_, ?_, ?_, ?_⟩ (fun _ _ _ => Iff.rfl) (fun _ => Iff.rfl)
  · exact if_pos rfl
  · exact if_pos rfl
  · exact if_pos rfl
  · exact hself.replica
  · intro q
    simp [GroupAdmission.State.next, afterRelease, not_marked_replicate]

def hearEvent (src p : Pid) (c : ℕ) : Message → GroupAdmission.Event Pid
  | .request m => .hearRequest src p m.requestTicket.ts.toNat c
  | .reply m => .hearReply src p m.senderTicket.ts.toNat m.requestTicket.ts.toNat c
  | .partyStart m => .hearStart src p m.senderTicket.ts.toNat m.participants c

@[simp] theorem algo_consume (w : World) (src p : Pid) (rest : List Message) :
    algo (w.consume src p rest) = algo w := rfl

section Hear

variable {m : Message} {rest : List Message} (hchan : w.chan src p = m :: rest)
variable (hsorted : (w.chan src p).Pairwise (fun x y => stamp x < stamp y))
include hchan hsorted

theorem rest_later {x : Message} (hx : x ∈ rest) : stamp m < stamp x := by
  rw [hchan] at hsorted
  exact (List.pairwise_cons.mp hsorted).1 x hx

theorem enabled_hear {c : ℕ} (hclock : time (w.node p) < c) (hts : stamp m < c) :
    (abstraction w).Enabled (live cfg) (hearEvent src p c m) := by
  have hearliest : (abstraction w).Earliest src p (abstractMsg m) := by
    refine ⟨⟨m, by simp [hchan], rfl⟩, ?_⟩
    intro x hx hne
    obtain ⟨m', hm', rfl⟩ := hx
    rw [hchan] at hm'
    rcases List.mem_cons.mp hm' with rfl | hm'
    · exact absurd rfl hne
    · rw [abstractMsg_ts, abstractMsg_ts]
      exact rest_later hchan hsorted hm'
  cases m with
  | request x => exact ⟨hearliest, hclock, hts⟩
  | reply x => exact ⟨hearliest, hclock, hts⟩
  | partyStart x => exact ⟨hearliest, hclock, hts⟩

theorem flight_consume (x y : Pid) (z : GroupAdmission.Msg Pid) :
    (∃ m' ∈ (w.consume src p rest).chan x y, abstractMsg m' = z) ↔
      (∃ m' ∈ w.chan x y, abstractMsg m' = z) ∧ ¬ (x = src ∧ y = p ∧ z = abstractMsg m) := by
  by_cases hxy : x = src ∧ y = p
  · obtain ⟨rfl, rfl⟩ := hxy
    simp only [World.consume, and_self, if_true, true_and, hchan, List.mem_cons]
    constructor
    · intro hex
      obtain ⟨m', hm', hz⟩ := hex
      refine ⟨⟨m', Or.inr hm', hz⟩, ?_⟩
      intro heq
      have hlt := rest_later hchan hsorted hm'
      rw [← abstractMsg_ts, ← abstractMsg_ts, hz, heq] at hlt
      exact Nat.lt_irrefl _ hlt
    · intro hex
      obtain ⟨⟨m', hm', hz⟩, hne⟩ := hex
      rcases hm' with rfl | hm'
      · exact absurd hz.symm hne
      · exact ⟨m', hm', hz⟩
  · have hne : ¬ (x = src ∧ y = p ∧ z = abstractMsg m) := fun h => hxy ⟨h.1, h.2.1⟩
    simp [World.consume, hxy, hne]

/-- A message without an answer leaves its channel and nothing else changes there. -/
theorem flight_heard {b : LamportQueueAlgorithm}
    {formed formed' : GroupAdmission.Formation Pid → Prop} {c : ℕ}
    (hans : (algo w p).answer m = none) (x y : Pid) (z : GroupAdmission.Msg Pid) :
    ((viewAfter w p (algo w p) [] formed).next (live cfg) (hearEvent src p c m)).flight x y z ↔
      (viewAfter (w.consume src p rest) p b
        (((algo w p).answer m).toList.map (fun x => ⟨[src], x⟩)) formed').flight x y z := by
  rw [hans]
  have hflight := flight_consume hchan hsorted x y z
  cases m with
  | request _ => cases hans
  | reply _ | partyStart _ =>
    simp only [viewAfter, view, Option.toList_none, List.map_nil, addressed_nil, ite_self,
      List.append_nil, hflight]
    rfl

theorem next_hearRequest {x : Request} (hm : m = .request x) (hpid : x.requestTicket.pid = src) :
    (abstraction w).next (live cfg)
        (hearEvent src p ((algo w p).absorb src m).lamportClock.time.toNat m) =
      viewAfter (w.consume src p rest) p ((algo w p).absorb src m)
        (((algo w p).answer m).toList.map (fun x => ⟨[src], x⟩)) (formedBy w.past) := by
  subst hm
  rw [← viewAfter_self w p]
  have hself : Shows (viewAfter w p (algo w p) [] (formedBy w.past)) p (algo w p) := shows_self
  refine next_eq_viewAfter rfl rfl ⟨?_, ?_, ?_, ?_, ?_⟩ ?_ (fun _ => Iff.rfl)
  · exact hself.phase
  · exact if_pos rfl
  · exact hself.ticket
  · intro r
    simp [GroupAdmission.State.next, hearEvent, hself.replica r, absorb, times_insert, hpid]
  · exact hself.marked
  · intro y z v
    have hsend := flight_send (w.consume src p rest).chan p y z []
      ⟨[src], .reply ⟨⟨(algo w p).myPid,
        ((algo w p).lamportClock.onReceive x.requestTicket.ts).now⟩, x.requestTicket⟩⟩ v
    rw [List.nil_append] at hsend
    simp only [viewAfter, view, GroupAdmission.State.next, hearEvent, absorb, answer,
      Option.toList_some, List.map_cons, List.map_nil]
    rw [hsend]
    simp only [addressed_nil, ite_self, List.append_nil, flight_consume hchan hsorted,
      List.mem_singleton]
    rfl

theorem next_hearReply {x : Reply} (hm : m = .reply x) (hc : Coherent cfg p (algo w p))
    (hsrc : src < cfg.worldSize) :
    (abstraction w).next (live cfg)
        (hearEvent src p ((algo w p).absorb src m).lamportClock.time.toNat m) =
      viewAfter (w.consume src p rest) p ((algo w p).absorb src m)
        (((algo w p).answer m).toList.map (fun x => ⟨[src], x⟩)) (formedBy w.past) := by
  subst hm
  have hlen : src.toNat < (algo w p).replyTracker.length := by
    rw [hc.length]
    exact UInt32.lt_iff_toNat_lt.mp hsrc
  rw [← viewAfter_self w p]
  have hself : Shows (viewAfter w p (algo w p) [] (formedBy w.past)) p (algo w p) := shows_self
  refine next_eq_viewAfter rfl rfl ⟨?_, ?_, ?_, ?_, ?_⟩ (flight_heard hchan hsorted rfl)
    (fun _ => Iff.rfl)
  · have hname : ¬ Message.Names (algo w p).myPid (.reply x) := fun h => h
    rw [absorb_state src hname]
    exact hself.phase
  · simp only [absorb]
    split <;> exact if_pos rfl
  · simp only [absorb]
    split <;> exact hself.ticket
  · simp only [absorb]
    split <;> exact hself.replica
  · intro q
    simp only [GroupAdmission.State.next, hearEvent, hself.marked, hself.phase, absorb,
      true_and]
    by_cases hw : (algo w p).currentState = .waitingForReplies
    · simp only [hw, if_true, markReply, marked_set hlen, phaseOf, and_true]
    · have hphase : phaseOf (algo w p).currentState ≠ .waiting := by
        cases hs : (algo w p).currentState <;> simp_all [phaseOf]
      simp only [hw, hphase, if_false, and_false, or_false]

theorem next_hearStart {x : PartyStart} (hm : m = .partyStart x)
    (hc : Coherent cfg p (algo w p)) :
    (abstraction w).next (live cfg)
        (hearEvent src p ((algo w p).absorb src m).lamportClock.time.toNat m) =
      viewAfter (w.consume src p rest) p ((algo w p).absorb src m)
        (((algo w p).answer m).toList.map (fun x => ⟨[src], x⟩)) (formedBy w.past) := by
  subst hm
  rw [← viewAfter_self w p]
  have hself : Shows (viewAfter w p (algo w p) [] (formedBy w.past)) p (algo w p) := shows_self
  refine next_eq_viewAfter rfl rfl ?_ (flight_heard hchan hsorted rfl) (fun _ => Iff.rfl)
  by_cases hn : p ∈ x.participants
  · have hn' : (algo w p).myPid ∈ x.participants := hc.myPid.symm ▸ hn
    simp only [absorb, if_pos hn', goToParty, resetTracker]
    refine ⟨?_, if_pos rfl, ?_, ?_, ?_⟩
    · exact if_pos ⟨rfl, hn⟩
    · exact if_pos ⟨rfl, hn⟩
    · intro r
      by_cases hr : r ∈ x.participants
      · simp [GroupAdmission.State.next, hearEvent, times_removeAll, hr]
      · simp [GroupAdmission.State.next, hearEvent, hself.replica r, times_removeAll, hr]
    · intro q
      simp [GroupAdmission.State.next, hearEvent, hn, not_marked_replicate]
  · have hn' : ¬ (algo w p).myPid ∈ x.participants := hc.myPid.symm ▸ hn
    simp only [absorb, if_neg hn']
    refine ⟨?_, if_pos rfl, ?_, ?_, ?_⟩
    · exact (if_neg (fun h => hn h.2)).trans hself.phase
    · exact (if_neg (fun h => hn h.2)).trans hself.ticket
    · intro r
      simp [GroupAdmission.State.next, hearEvent, hself.replica r, times_removeAll]
    · intro q
      simp [GroupAdmission.State.next, hearEvent, hself.marked q, hn]

/-- Hearing a message, as an event of group admission. -/
theorem next_hear (hc : Coherent cfg p (algo w p)) (hp : Proper cfg src p m) :
    (abstraction w).next (live cfg)
        (hearEvent src p ((algo w p).absorb src m).lamportClock.time.toNat m) =
      viewAfter (w.consume src p rest) p ((algo w p).absorb src m)
        (((algo w p).answer m).toList.map (fun x => ⟨[src], x⟩)) (formedBy w.past) := by
  cases hm : m with
  | request x =>
    subst hm
    exact next_hearRequest hchan hsorted rfl (hp.request x rfl)
  | reply x =>
    subst hm
    exact next_hearReply hchan hsorted rfl hc hp.src_live
  | partyStart x =>
    subst hm
    exact next_hearStart hchan hsorted rfl hc

end Hear

end Events

section Runs

variable {cfg : Config} {w : World} {p : Pid} {a : LamportQueueAlgorithm} {out : Sends}
variable {formed : GroupAdmission.Formation Pid → Prop}
variable {ok : Admission → GroupAdmission.Event Pid → Prop}

def OnHearing (ok : Admission → GroupAdmission.Event Pid → Prop) : Prop :=
  ∀ s e, (∀ a b x, ¬ GroupAdmission.State.Event.Hears e a b x) → ok s e

theorem formedBy_cons (c : Call) (past : List Call) :
    formedBy (c :: past) = fun f => formedBy past f ∨ ∃ m, Forms c m ∧ f = formation c m := by
  funext f
  simp only [formedBy, List.mem_cons, eq_iff_iff]
  constructor
  · intro hex
    obtain ⟨d, hd, m, hm, hf⟩ := hex
    rcases hd with rfl | hd
    · exact Or.inr ⟨m, hm, hf⟩
    · exact Or.inl ⟨d, hd, m, hm, hf⟩
  · intro h
    rcases h with ⟨d, hd, m, hm, hf⟩ | ⟨m, hm, hf⟩
    · exact ⟨d, Or.inr hd, m, hm, hf⟩
    · exact ⟨c, Or.inl rfl, m, hm, hf⟩

theorem formedBy_cons_of_not {c : Call} (past : List Call) (h : ∀ m, ¬ Forms c m) :
    formedBy (c :: past) = formedBy past := by
  rw [formedBy_cons]
  funext f
  simp [h]

theorem run_settle (hok : OnHearing ok) (hc : Coherent cfg p a)
    (hle : a.lamportClock.time.toNat ≤ a.settle.lamportClock.time.toNat)
    (h : GroupAdmission.State.Run (live cfg) ok (viewAfter w p a out formed)) :
    GroupAdmission.State.Run (live cfg) ok (viewAfter w p a.settle out formed) := by
  by_cases hs : a.currentState = .waitingForReplies ∧ a.allRepliesReceived = true
  · have htick : a.settle.lamportClock.time.toNat = (a.lamportClock.time.toNat + 1) % 2 ^ 64 := by
      rw [← toNat_tick]
      simp [settle, hs]
    have hlt := a.lamportClock.time.toNat_lt
    rw [← next_settle cfg hs.1 hs.2]
    refine .step h (enabled_settle hc hs.1 hs.2 (by omega)) (hok _ _ ?_)
    exact fun _ _ _ hx => hx
  · rwa [show a.settle = a by simp [settle, hs]]

theorem run_form (hok : OnHearing ok) (hcfg : ExactConfig cfg) (hc : Coherent cfg p a)
    {g : List Pid} (hr : a.Ready g)
    (hlt : a.lamportClock.time.toNat < (a.afterStart g).lamportClock.time.toNat)
    (h : GroupAdmission.State.Run (live cfg) ok (viewAfter w p a out formed)) :
    GroupAdmission.State.Run (live cfg) ok (viewAfter w p (a.afterStart g)
      (out ++ [⟨broadcastDests a.myPid a.cfg.worldSize, .partyStart (a.startOf g)⟩])
      (fun f => formed f ∨ f = ⟨p, (a.afterStart g).lamportClock.time.toNat, g,
        times a.globalQueue⟩)) := by
  rw [← next_form hc]
  refine .step h (enabled_form hcfg hc hr hlt) (hok _ _ ?_)
  exact fun _ _ _ hx => hx

theorem answer_not_start {a : LamportQueueAlgorithm} {m : Message} {src : Pid} {x : PartyStart}
    {pkt : Packet Pid Message}
    (h : pkt ∈ (a.answer m).toList.map (fun y => (⟨[src], y⟩ : Packet Pid Message))) :
    pkt.msg ≠ .partyStart x := by
  obtain ⟨y, hy, rfl⟩ := List.mem_map.mp h
  cases m with
  | request z =>
    simp only [answer, Option.toList_some, List.mem_singleton] at hy
    subst hy
    simp
  | reply | partyStart => simp [answer] at hy

/-- A message absorbed and the entry into the queue, before a party is formed. -/
theorem refines_absorb (hok : OnHearing ok) (hs : Sound cfg w) {src : Pid} {m : Message}
    {rest : List Message} (hchan : w.chan src p = m :: rest)
    (hsorted : (w.chan src p).Pairwise (fun x y => stamp x < stamp y)) {z : ℕ}
    (hz : Readings (w.node p) src m z)
    (hcond : ∀ c, ok (abstraction w) (hearEvent src p c m))
    (h : GroupAdmission.State.Run (live cfg) ok (abstraction w)) :
    GroupAdmission.State.Run (live cfg) ok (viewAfter (w.consume src p rest) p
      ((algo w p).absorb src m).settle
      (((algo w p).answer m).toList.map (fun x => ⟨[src], x⟩)) (formedBy w.past)) := by
  have hm : Proper cfg src p m := hs.proper src p m (by simp [hchan])
  have hc := hs.coherent p
  apply run_settle hok (hc.absorb hm) hz.settle
  rw [← next_hear hchan hsorted hc hm]
  exact .step h (enabled_hear hchan hsorted hz.before hz.heard) (hcond _)

/-- The party formed by a call is drawn from the replica after its message. -/
theorem formedBy_start {r : Runtime} {src : Pid} {m : Message} {dests : List Pid} {g : List Pid}
    {l : LocalThread} (past : List Call) :
    formedBy (⟨p, some (src, m), r, ⟨(r.algorithm.absorb src m).settle.afterStart g, l⟩,
        (r.algorithm.answer m).toList.map (fun x => ⟨[src], x⟩) ++
          [⟨dests, .partyStart ((r.algorithm.absorb src m).settle.startOf g)⟩]⟩ :: past) =
      fun f => formedBy past f ∨
        f = ⟨p, ((r.algorithm.absorb src m).settle.afterStart g).lamportClock.time.toNat, g,
          times (r.algorithm.absorb src m).settle.globalQueue⟩ := by
  rw [formedBy_cons]
  funext f
  refine propext (or_congr_right ?_)
  rw [settle_queue]
  constructor
  · intro hex
    obtain ⟨x, ⟨pkt, hpkt, hx⟩, hf⟩ := hex
    rcases List.mem_append.mp hpkt with hpkt | hpkt
    · exact absurd hx (answer_not_start hpkt)
    · obtain rfl := List.mem_singleton.mp hpkt
      obtain rfl := Message.partyStart.inj hx
      exact hf
  · intro hf
    exact ⟨_, ⟨_, List.mem_append_right _ (List.mem_singleton.mpr rfl), rfl⟩, hf⟩

theorem refines_hear (hok : OnHearing ok) (hcfg : ExactConfig cfg) (hs : Sound cfg w)
    {src : Pid} {m : Message} {rest : List Message} {env : Env}
    (hchan : w.chan src p = m :: rest)
    (hsorted : (w.chan src p).Pairwise (fun x y => stamp x < stamp y))
    (hclock : time (w.node p) ≤ time (((system cfg).hear w src p env m rest).node p))
    (hheard : stamp m ≤ time (((system cfg).hear w src p env m rest).node p))
    (hcond : ∀ c, ok (abstraction w) (hearEvent src p c m))
    (h : GroupAdmission.State.Run (live cfg) ok (abstraction w)) :
    GroupAdmission.State.Run (live cfg) ok
      (abstraction ((system cfg).hear w src p env m rest)) := by
  have hm : Proper cfg src p m := hs.proper src p m (by simp [hchan])
  have hc := hs.coherent p
  have hheard' := Runtime.onMsg_heard (w.node p) env src m (hs.notReady p)
  have hcs : Coherent cfg p ((algo w p).absorb src m).settle := (hc.absorb hm).settle
  simp only [Protocol.hear_node_self] at hclock hheard
  unfold Protocol.hear
  rw [abstraction_react]
  have habsorb : ∀ z, Readings (w.node p) src m z → _ := fun z hz =>
    refines_absorb hok hs hchan hsorted hz hcond h
  change Runtime.Heard (w.node p) env src m ((system cfg).onMsg p (w.node p) env src m) at hheard'
  generalize hres : (system cfg).onMsg p (w.node p) env src m = res at hheard' hclock hheard ⊢
  cases hheard' with
  | stay a l ha _ _ _ =>
    subst ha
    have hz := readings (Or.inl rfl) hclock hheard
    unfold World.react
    dsimp only
    rw [formedBy_cons_of_not]
    · exact habsorb _ hz
    · intro x hex
      obtain ⟨pkt, hpkt, hx⟩ := hex
      exact answer_not_start hpkt hx
  | start a g ha hr _ =>
    subst ha
    have hzt : (((algo w p).absorb src m).settle.afterStart g).lamportClock.time.toNat =
        (((algo w p).absorb src m).settle.lamportClock.time.toNat + 1) % 2 ^ 64 :=
      toNat_tick _
    have hz := readings (Or.inr hzt) hclock hheard
    have hform := run_form hok hcfg hcs hr (hz.start hzt) (habsorb _ hz)
    unfold World.react
    dsimp only
    rw [World.consume_node, formedBy_start]
    exact hform

theorem run_want (hok : OnHearing ok) (hc : Coherent cfg p (algo w p)) (hp : p < cfg.worldSize)
    (hidle : (algo w p).currentState = .idle)
    (hclock : (algo w p).lamportClock.time.toNat < (algo w p).lamportClock.tick.time.toNat)
    (h : GroupAdmission.State.Run (live cfg) ok (abstraction w)) :
    GroupAdmission.State.Run (live cfg) ok (viewAfter w p (algo w p).afterWant
      [⟨broadcastDests (algo w p).myPid (algo w p).cfg.worldSize,
        .request ⟨⟨(algo w p).myPid, (algo w p).lamportClock.tick.now⟩⟩⟩]
      (formedBy w.past)) := by
  have hnext : (viewAfter w p (algo w p) [] (formedBy w.past)).next (live cfg)
      (.want p (algo w p).afterWant.lamportClock.time.toNat) = _ := next_want hc hp
  rw [List.nil_append] at hnext
  rw [← viewAfter_self w p] at h
  rw [← hnext]
  refine .step h ⟨hp, ?_, ?_⟩ (hok _ _ (fun _ _ _ hx => hx))
  · rw [shows_self.phase, hidle]
    rfl
  · rw [shows_self.clock]
    exact hclock

theorem run_release (hok : OnHearing ok) (hparty : (algo w p).currentState = .inParty)
    (hclock : (algo w p).lamportClock.time.toNat < (algo w p).lamportClock.tick.time.toNat)
    (h : GroupAdmission.State.Run (live cfg) ok (abstraction w)) :
    GroupAdmission.State.Run (live cfg) ok
      (viewAfter w p (algo w p).afterRelease [] (formedBy w.past)) := by
  rw [← viewAfter_self w p] at h
  rw [← next_release cfg]
  refine .step h ⟨?_, ?_⟩ (hok _ _ (fun _ _ _ hx => hx))
  · rw [shows_self.phase, hparty]
    rfl
  · rw [shows_self.clock]
    exact hclock

theorem refines_turn (hok : OnHearing ok) (hs : Sound cfg w) {env : Env}
    (hp : p < cfg.worldSize)
    (hclock : time (w.node p) ≤ time (((system cfg).turn w p env).node p))
    (h : GroupAdmission.State.Run (live cfg) ok (abstraction w)) :
    GroupAdmission.State.Run (live cfg) ok (abstraction ((system cfg).turn w p env)) := by
  have hpolled := (hs.inStep p).onPoll env
  simp only [Protocol.turn_node_self] at hclock
  unfold Protocol.turn
  rw [abstraction_react]
  change Runtime.Polled (w.node p) env ((system cfg).onPoll p (w.node p) env) at hpolled
  generalize hres : (system cfg).onPoll p (w.node p) env = res at hpolled hclock ⊢
  have htick := toNat_tick (algo w p).lamportClock
  have hlt := (algo w p).lamportClock.time.toNat_lt
  unfold World.react
  dsimp only
  cases hpolled with
  | nothing =>
    rw [formedBy_cons_of_not]
    · rwa [← viewAfter_self w p] at h
    · intro x hex
      obtain ⟨pkt, hpkt, -⟩ := hex
      cases hpkt
  | want hidle =>
    rw [formedBy_cons_of_not]
    · change (algo w p).lamportClock.time.toNat ≤ (algo w p).lamportClock.tick.time.toNat
        at hclock
      exact run_want hok (hs.coherent p) hp hidle (by omega) h
    · intro x hex
      obtain ⟨pkt, hpkt, hx⟩ := hex
      obtain rfl := List.mem_singleton.mp hpkt
      cases hx
  | release hparty =>
    rw [formedBy_cons_of_not]
    · change (algo w p).lamportClock.time.toNat ≤ (algo w p).lamportClock.tick.time.toNat
        at hclock
      exact run_release hok hparty (by omega) h
    · intro x hex
      obtain ⟨pkt, hpkt, -⟩ := hex
      cases hpkt

theorem abstraction_initial : abstraction (system cfg).initial = GroupAdmission.State.initial := by
  simp only [abstraction, view, Protocol.initial, GroupAdmission.State.initial, algo, system,
    create]
  ext x y
  · rfl
  · rfl
  · simp
  · simp [times]
  · simp [List.getElem?_replicate]
  · simp
  · simp [formedBy]

/-- The system refines group admission: under a condition on steps that implies
`ok` for the messages heard, every run is a run of group admission. -/
theorem refines {cond : World → Label → World → Prop} (hcfg : ExactConfig cfg)
    (hok : OnHearing ok) (hwrap : ∀ w l w', cond w l w' → NoWrap w l w')
    (hcond : ∀ w src dst env m rest w', (system cfg).Run cond w → w.chan src dst = m :: rest →
      cond w (.deliver src dst env) w' → ∀ c, ok (abstraction w) (hearEvent src dst c m))
    (h : (system cfg).Run cond w) :
    GroupAdmission.State.Run (live cfg) ok (abstraction w) := by
  refine Protocol.Run.invariant
    (I := fun w => GroupAdmission.State.Run (live cfg) ok (abstraction w)) ?_ ?_ ?_ h
  · rw [abstraction_initial]
    exact .init
  · intro w src dst env m rest hr ih hchan hk
    have hnw := hwrap _ _ _ hk
    have hd := disciplined_of_run (hr.mono hwrap)
    exact refines_hear hok hcfg (Sound.of_run hr) hchan (chan_sorted hr hd src dst)
      hnw.1 (hnw.2 m (by simp [hchan]))
      (hcond w src dst env m rest _ hr hchan hk) ih
  · intro w p env hr ih hp hk
    exact refines_turn hok (Sound.of_run hr) hp (hwrap _ _ _ hk) ih

end Runs

end HaresBears
