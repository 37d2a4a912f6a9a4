import HaresBears.PartyIds

/-!
Two hares in a glade for one dance alone, one round after the other. A round moves
both clocks by six and the counter of the dancer by one, so in the end the ids of the
first hare reach the slice of the second.
-/
namespace HaresBears

open FifoNetwork LamportQueueAlgorithm

section Clock

def beat (n : ℕ) : LamportClock := ⟨UInt64.ofNat n⟩

theorem tick_beat (n : ℕ) : (beat n).tick = beat (n + 1) := by
  simp [beat, LamportClock.tick, UInt64.ofNat_add]

theorem onReceive_beat {n m : ℕ} (hn : n < 2 ^ 64) (hm : m < 2 ^ 64) :
    (beat n).onReceive (beat m).time = beat (max n m + 1) := by
  have htime : ((beat n).onReceive (beat m).time).time = UInt64.ofNat (max n m + 1) := by
    apply UInt64.toNat_inj.mp
    rw [toNat_onReceive, beat, beat, UInt64.toNat_ofNat', UInt64.toNat_ofNat', UInt64.toNat_ofNat',
      Nat.mod_eq_of_lt hn, Nat.mod_eq_of_lt hm]
  exact congrArg LamportClock.mk htime

end Clock

section Duo

variable {p q : Pid} {w : World} {r s : Runtime} {xs ys : List Message} {env : Env}

/-- Two processes in the states `r` and `s`, with `xs` and `ys` on their way between
them, and nothing else in flight. -/
structure Duo (p q : Pid) (w : World) (xs ys : List Message) (r s : Runtime) : Prop where
  node_p : w.node p = r
  node_q : w.node q = s
  chan : ∀ a b, w.chan a b = if a = p ∧ b = q then xs else if a = q ∧ b = p then ys else []

theorem Duo.symm (hne : p ≠ q) (h : Duo p q w xs ys r s) : Duo q p w ys xs s r where
  node_p := h.node_q
  node_q := h.node_p
  chan a b := by
    rw [h.chan]
    by_cases hx : a = p ∧ b = q
    · have hy : ¬ (a = q ∧ b = p) := fun hy => hne (hx.1.symm.trans hy.1)
      rw [if_pos hx, if_neg hy, if_pos hx]
    · rw [if_neg hx, if_neg hx]

/-- A poll of the first of the two. -/
theorem Duo.turn (hne : p ≠ q) (h : Duo p q w xs ys r s) (cfg : Config) {res : Runtime × Sends}
    (hres : r.onPoll env = res) (hout : ∀ b, b ≠ q → addressed b res.2 = []) :
    Duo p q ((system cfg).turn w p env) (xs ++ addressed q res.2) ys res.1 s ∧
      startIds ((system cfg).turn w p env).past = sentIds res.2 ++ startIds w.past := by
  subst hres
  refine ⟨⟨?_, ?_, ?_⟩, ?_⟩
  · rw [Protocol.turn_node_self, system_onPoll, h.node_p]
  · rw [Protocol.turn_node_ne hne.symm, h.node_q]
  · intro a b
    change w.chan a b ++ (if a = p then addressed b (Runtime.onPoll (w.node p) env).2 else []) = _
    rw [h.chan, h.node_p]
    by_cases ha : a = p
    · subst ha
      by_cases hb : b = q
      · simp [hb]
      · simp [hb, hne, hout b hb]
    · simp [ha]
  · simp only [Protocol.turn, World.react, system_onPoll, h.node_p]
    rfl

/-- A delivery to the second of the two. -/
theorem Duo.hear (hne : p ≠ q) {m : Message} (h : Duo p q w (m :: xs) ys r s) (cfg : Config)
    (env : Env) {res : Runtime × Sends} (hres : s.onMsg env p m = res)
    (hout : ∀ b, b ≠ p → addressed b res.2 = []) :
    Duo p q ((system cfg).hear w p q env m xs) xs (ys ++ addressed p res.2) r res.1 ∧
      startIds ((system cfg).hear w p q env m xs).past = sentIds res.2 ++ startIds w.past := by
  subst hres
  refine ⟨⟨?_, ?_, ?_⟩, ?_⟩
  · rw [Protocol.hear_node_ne hne, h.node_p]
  · rw [Protocol.hear_node_self, system_onMsg, h.node_q]
  · intro a b
    change (if a = p ∧ b = q then xs else w.chan a b) ++
      (if a = q then addressed b (Runtime.onMsg (w.node q) env p m).2 else []) = _
    rw [h.chan, h.node_q]
    by_cases ha : a = q
    · subst ha
      by_cases hb : b = p
      · simp [hb, hne.symm]
      · simp [hb, hne.symm, hout b hb]
    · have hback : ¬ (a = q ∧ b = p) := fun hx => ha hx.1
      rw [if_neg ha, List.append_nil, if_neg hback, if_neg hback]
      by_cases hx : a = p ∧ b = q
      · rw [if_pos hx, if_pos hx]
      · rw [if_neg hx, if_neg hx, if_neg hx]
  · simp only [Protocol.hear, World.react, system_onMsg, h.node_q]
    rfl

theorem Duo.first {m : Message} (h : Duo p q w (m :: xs) ys r s) : w.chan p q = m :: xs := by
  rw [h.chan, if_pos ⟨rfl, rfl⟩]

end Duo

section Round

variable {p q : Pid} {w : World} {n : ℕ} {k j : PartyId} {env : Env}

def resting (p : Pid) (n : ℕ) (k : PartyId) : Runtime where
  algorithm := { create p (haresOnly 2 1) with lamportClock := beat n, partyCounter := k }

/-- A process without a request handles a message and stays as it is. -/
theorem onMsg_idle {r : Runtime} {src : Pid} {m : Message} (hs : r.algorithm.currentState = .idle)
    (hn : ¬ m.Names r.algorithm.myPid) :
    r.onMsg env src m = (⟨r.algorithm.absorb src m, r.localSrc⟩,
      (r.algorithm.answer m).toList.map (fun x => ⟨[src], x⟩)) := by
  have hidle := (absorb_state src hn).trans hs
  have hset : (r.algorithm.absorb src m).settle = r.algorithm.absorb src m :=
    settle_of_ne (by simp [hidle])
  have hr : ∀ g, ¬ r.algorithm.Ready g := fun g hg => by
    have hq := hg.queued
    rw [hs] at hq
    cases hq
  have hheard := Runtime.onMsg_heard r env src m hr
  generalize r.onMsg env src m = res at hheard
  cases hheard with
  | stay a l ha _ hl _ => rw [ha, hset, hl hn]
  | start a g ha hready _ =>
    have hq := hready.queued
    rw [ha, hset, hidle] at hq
    cases hq

/-- A process that the message makes ready to start a party starts it. -/
theorem onMsg_start {r : Runtime} {src : Pid} {m : Message} {g : List Pid}
    (hs : r.algorithm.currentState ≠ .queued)
    (hg : (r.algorithm.absorb src m).settle.Ready g) :
    r.onMsg env src m = (⟨(r.algorithm.absorb src m).settle.afterStart g,
        r.localSrc.onNotify .enteredParty env⟩,
      (r.algorithm.answer m).toList.map (fun x => ⟨[src], x⟩) ++
        [⟨broadcastDests (r.algorithm.absorb src m).settle.myPid
            (r.algorithm.absorb src m).settle.cfg.worldSize,
          .partyStart ((r.algorithm.absorb src m).settle.startOf g)⟩]) := by
  have hheard := Runtime.onMsg_heard r env src m (fun g' hg' => hs hg'.queued)
  generalize r.onMsg env src m = res at hheard
  cases hheard with
  | stay a l ha hno _ _ =>
    subst ha
    exact absurd hg (hno g)
  | start a g' ha hg' _ =>
    subst ha
    obtain rfl := Option.some.inj (hg.group.symm.trans hg'.group)
    rfl

theorem pid_cases {p : Pid} (hp : p < 2) : p = 0 ∨ p = 1 := by
  rw [UInt32.lt_iff_toNat_lt] at hp
  rw [← UInt32.toNat_inj, ← UInt32.toNat_inj]
  change p.toNat < 2 at hp
  change p.toNat = 0 ∨ p.toNat = 1
  omega

theorem pids_of_ne {p q : Pid} (hp : p < 2) (hq : q < 2) (hne : p ≠ q) :
    p = 0 ∧ q = 1 ∨ p = 1 ∧ q = 0 := by
  rcases pid_cases hp with rfl | rfl
  · exact Or.inl ⟨rfl, (pid_cases hq).resolve_left hne.symm⟩
  · exact Or.inr ⟨rfl, (pid_cases hq).resolve_right hne.symm⟩

/-- A queued hare with nobody else in its replica dances alone. -/
theorem ready_alone {a : LamportQueueAlgorithm} {t : Ticket} (hp : a.myPid < 2)
    (hcfg : a.cfg = haresOnly 2 1) (hpolicy : a.policy = ⟨1, 1, 4⟩)
    (hs : a.currentState = .queued) (hq : a.globalQueue = RequestQueue.empty.insert t)
    (ht : t.pid = a.myPid) : a.Ready [a.myPid] := by
  have hsnap : a.globalQueue.snapshot = [t] := by rw [hq]; rfl
  refine ⟨hs, ?_, ?_, List.mem_singleton.mpr rfl⟩
  · rw [hq, ← ht]
    rfl
  · rw [tryBuildParty_eq, candidates, hsnap, List.map_singleton, ht, hcfg, hpolicy]
    rcases pid_cases hp with h | h <;> rw [h] <;> decide +kernel

def freshTicket (p : Pid) (n : ℕ) : Ticket := ⟨p, (beat (n + 1)).time⟩

def asking (p : Pid) (n : ℕ) (k : PartyId) : LamportQueueAlgorithm :=
  { create p (haresOnly 2 1) with
    lamportClock := beat (n + 1)
    currentState := .waitingForReplies
    globalQueue := RequestQueue.empty.insert (freshTicket p n)
    pendingReqTicket := some (freshTicket p n)
    replyTracker := [false, false].set p.toNat true
    partyCounter := k }

def admitted (p : Pid) (n : ℕ) (k : PartyId) : LamportQueueAlgorithm :=
  { asking p n k with
    lamportClock := beat (n + 4)
    currentState := .queued
    replyTracker := [true, true] }

def asked (p q : Pid) (n : ℕ) (j : PartyId) : LamportQueueAlgorithm :=
  { create q (haresOnly 2 1) with
    lamportClock := beat (n + 2)
    globalQueue := RequestQueue.empty.insert (freshTicket p n)
    partyCounter := j }

def danceId (n : ℕ) (k : PartyId) : UInt64 :=
  (k.toUInt64 + (beat (n + 5)).time).toUInt32.toUInt64

def dance (p : Pid) (n : ℕ) (k : PartyId) : PartyStart :=
  ⟨⟨p, (beat (n + 5)).time⟩, danceId n k, [p]⟩

theorem served_alone (t : Ticket) (h : t.pid = p) :
    (RequestQueue.empty.insert t).removeAll [p] = RequestQueue.empty := by
  apply RequestQueue.eq_empty
  intro r
  rw [RequestQueue.lookup_removeAll, RequestQueue.lookup_insert, h]
  by_cases hr : r = p <;> simp [hr]

theorem afterWant_resting : (resting p n k).algorithm.afterWant = asking p n k := by
  simp only [resting, afterWant, asking, freshTicket, tick_beat, LamportClock.now]
  rfl

theorem absorb_request (hn : n + 6 < 2 ^ 64) :
    (resting q n j).algorithm.absorb p (.request ⟨freshTicket p n⟩) = asked p q n j := by
  have hclock : (beat n).onReceive (beat (n + 1)).time = beat (n + 2) := by
    rw [onReceive_beat (by omega) (by omega), Nat.max_eq_right (Nat.le_succ n)]
  simp only [resting, absorb, asked, freshTicket, hclock]
  rfl

theorem absorb_reply (hn : n + 6 < 2 ^ 64) (hp : p < 2) (hq : q < 2) (hne : p ≠ q) :
    ((asking p n k).absorb q (.reply ⟨⟨q, (beat (n + 2)).time⟩, freshTicket p n⟩)).settle =
      admitted p n k := by
  have hclock : (beat (n + 1)).onReceive (beat (n + 2)).time = beat (n + 3) := by
    rw [onReceive_beat (by omega) (by omega), Nat.max_eq_right (Nat.le_succ _)]
  have htracker : ([false, false].set p.toNat true).set q.toNat true = [true, true] := by
    rcases pids_of_ne hp hq hne with ⟨rfl, rfl⟩ | ⟨rfl, rfl⟩ <;> rfl
  simp only [asking, absorb, hclock, markReply, if_true, htracker, settle, allRepliesReceived,
    tick_beat, admitted]
  rfl

theorem absorb_dance (hn : n + 6 < 2 ^ 64) (hne : q ≠ p) :
    (asked p q n j).absorb p (.partyStart (dance p n k)) = (resting q (n + 6) j).algorithm := by
  have hclock : (beat (n + 2)).onReceive (beat (n + 5)).time = beat (n + 6) := by
    rw [onReceive_beat (by omega) (by omega), Nat.max_eq_right (by omega)]
  have hout : q ∉ [p] := by simpa using hne
  have hserved := served_alone (freshTicket p n) (p := p) rfl
  simp only [asked, absorb, dance, hclock, hserved, create, hout, if_false, resting]

theorem afterRelease_dance :
    ((admitted p n k).afterStart [p]).afterRelease = (resting p (n + 6) (k + 1)).algorithm := by
  have hserved := served_alone (freshTicket p n) (p := p) rfl
  simp only [admitted, asking, afterStart, afterRelease, tick_beat, hserved, resting, create]

theorem startOf_admitted : (admitted p n k).startOf [p] = dance p n k := by
  simp only [admitted, asking, startOf, tick_beat, dance, danceId, LamportClock.now, create]

theorem broadcastDests_pair (hp : p < 2) (hq : q < 2) (hne : p ≠ q) :
    broadcastDests p (haresOnly 2 1).worldSize = [q] := by
  rcases pids_of_ne hp hq hne with ⟨rfl, rfl⟩ | ⟨rfl, rfl⟩ <;> rfl

theorem addressed_single {m : Message} :
    addressed q [(⟨[q], m⟩ : Packet Pid Message)] = [m] ∧
      ∀ b, b ≠ q → addressed b [(⟨[q], m⟩ : Packet Pid Message)] = [] := by
  constructor
  · simp [addressed]
  · intro b hb
    simp [addressed, hb]

theorem poll_want (hp : p < 2) (hq : q < 2) (hne : p ≠ q) :
    (resting p n k).onPoll ⟨0, true⟩ = (⟨asking p n k, { shouldWant := false }⟩,
      [⟨[q], .request ⟨freshTicket p n⟩⟩]) := by
  rw [Runtime.onPoll_want rfl rfl rfl rfl, afterWant_resting]
  change (_, [(⟨broadcastDests p (haresOnly 2 1).worldSize,
    .request ⟨⟨p, (beat n).tick.time⟩⟩⟩ : Packet Pid Message)]) = _
  rw [broadcastDests_pair hp hq hne, tick_beat]
  rfl

theorem hear_request (hn : n + 6 < 2 ^ 64) :
    (resting q n j).onMsg env p (.request ⟨freshTicket p n⟩) = (⟨asked p q n j, {}⟩,
      [⟨[p], .reply ⟨⟨q, (beat (n + 2)).time⟩, freshTicket p n⟩⟩]) := by
  have hclock : (beat n).onReceive (beat (n + 1)).time = beat (n + 2) := by
    rw [onReceive_beat (by omega) (by omega), Nat.max_eq_right (Nat.le_succ n)]
  have hname : ¬ Message.Names (resting q n j).algorithm.myPid (.request ⟨freshTicket p n⟩) :=
    fun h => h
  rw [onMsg_idle rfl hname, absorb_request hn]
  change (_, [(⟨[p], .reply ⟨⟨q, ((beat n).onReceive (beat (n + 1)).time).time⟩,
    freshTicket p n⟩⟩ : Packet Pid Message)]) = _
  rw [hclock]
  rfl

theorem hear_reply (hp : p < 2) (hq : q < 2) (hne : p ≠ q) (hn : n + 6 < 2 ^ 64) {mark : ℕ} :
    (⟨asking p n k, ⟨false, mark, .exitedParty⟩⟩ : Runtime).onMsg ⟨0, true⟩ q
        (.reply ⟨⟨q, (beat (n + 2)).time⟩, freshTicket p n⟩) =
      (⟨(admitted p n k).afterStart [p], ⟨false, 0, .enteredParty⟩⟩,
        [⟨[q], .partyStart (dance p n k)⟩]) := by
  have habsorb := absorb_reply (k := k) hn hp hq hne
  have hready : (admitted p n k).Ready [p] :=
    ready_alone (t := freshTicket p n) hp rfl rfl rfl rfl rfl
  rw [onMsg_start (g := [p]) (by simp [asking]) (by rwa [habsorb]), habsorb, startOf_admitted]
  change (_, [(⟨broadcastDests p (haresOnly 2 1).worldSize, .partyStart (dance p n k)⟩ :
    Packet Pid Message)]) = _
  rw [broadcastDests_pair hp hq hne]
  rfl

theorem hear_dance (hn : n + 6 < 2 ^ 64) (hne : p ≠ q) :
    (⟨asked p q n j, {}⟩ : Runtime).onMsg env p (.partyStart (dance p n k)) =
      (resting q (n + 6) j, []) := by
  have hname : ¬ Message.Names (asked p q n j).myPid (.partyStart (dance p n k)) := by
    change q ∉ [p]
    simpa using hne.symm
  rw [onMsg_idle rfl hname, absorb_dance hn hne.symm]
  rfl

theorem poll_release : (⟨(admitted p n k).afterStart [p], ⟨false, 0, .enteredParty⟩⟩ :
    Runtime).onPoll ⟨501000000, true⟩ = (resting p (n + 6) (k + 1), []) := by
  have hover :
      LocalThread.shouldReleaseParty ⟨false, 0, .enteredParty⟩ ⟨501000000, true⟩ = true := by
    decide
  rw [Runtime.onPoll_release hover, afterRelease_dance]
  rfl

/-- One round: a request, its reply, a party start, and the end of the party. -/
theorem exists_round (hp : p < 2) (hq : q < 2) (hne : p ≠ q) (hn : n + 6 < 2 ^ 64)
    (hr : (system (haresOnly 2 1)).Reachable w)
    (hw : Duo p q w [] [] (resting p n k) (resting q n j)) :
    ∃ w', (system (haresOnly 2 1)).Reachable w' ∧
      Duo p q w' [] [] (resting p (n + 6) (k + 1)) (resting q (n + 6) j) ∧
      startIds w'.past = danceId n k :: startIds w.past := by
  have hsolo : ∀ {a : Pid} {m : Message} (b : Pid), b ≠ a →
      addressed b [(⟨[a], m⟩ : Packet Pid Message)] = [] := fun b hb => addressed_single.2 b hb
  obtain ⟨h1, hids1⟩ := hw.turn hne (haresOnly 2 1) (poll_want hp hq hne) hsolo
  have hr1 := hr.turn ⟨0, true⟩ hp
  simp only [addressed_single.1, List.nil_append] at h1
  obtain ⟨h2, hids2⟩ := h1.hear hne (haresOnly 2 1) ⟨0, true⟩ (hear_request hn) hsolo
  have hr2 := hr1.hear ⟨0, true⟩ h1.first
  simp only [addressed_single.1, List.nil_append] at h2
  obtain ⟨h3, hids3⟩ := (h2.symm hne).hear hne.symm (haresOnly 2 1) ⟨0, true⟩
    (hear_reply hp hq hne hn) hsolo
  have hr3 := hr2.hear ⟨0, true⟩ (h2.symm hne).first
  simp only [addressed_single.1, List.nil_append] at h3
  obtain ⟨h4, hids4⟩ := (h3.symm hne.symm).hear hne (haresOnly 2 1) ⟨0, true⟩
    (hear_dance hn hne) (fun _ _ => rfl)
  have hr4 := hr3.hear ⟨0, true⟩ (h3.symm hne.symm).first
  obtain ⟨h5, hids5⟩ := h4.turn hne (haresOnly 2 1) poll_release (fun _ _ => rfl)
  have hr5 := hr4.turn ⟨501000000, true⟩ hp
  refine ⟨_, hr5, h5, ?_⟩
  rw [hids5, hids4, hids3, hids2, hids1]
  rfl

/-- Rounds of one hare, one after the other. -/
theorem exists_rounds (hp : p < 2) (hq : q < 2) (hne : p ≠ q) (rounds : ℕ)
    (hn : n + 6 * rounds < 2 ^ 64) (hr : (system (haresOnly 2 1)).Reachable w)
    (hw : Duo p q w [] [] (resting p n k) (resting q n j)) :
    ∃ w', (system (haresOnly 2 1)).Reachable w' ∧
      Duo p q w' [] [] (resting p (n + 6 * rounds) (k + UInt32.ofNat rounds))
        (resting q (n + 6 * rounds) j) ∧
      ∀ x ∈ startIds w.past, x ∈ startIds w'.past := by
  induction rounds with
  | zero => exact ⟨w, hr, by simpa using hw, fun x hx => hx⟩
  | succ rounds ih =>
    obtain ⟨v, hv, hduo, hids⟩ := ih (by omega)
    obtain ⟨w', hw', hduo', hids'⟩ := exists_round hp hq hne (by omega) hv hduo
    refine ⟨w', hw', ?_, ?_⟩
    · have hbeats : n + 6 * rounds + 6 = n + 6 * (rounds + 1) := by omega
      have hcount : k + UInt32.ofNat rounds + 1 = k + UInt32.ofNat (rounds + 1) := by
        rw [UInt32.ofNat_add, UInt32.add_assoc]
        rfl
      rwa [hbeats, hcount] at hduo'
    · intro x hx
      rw [hids']
      exact List.mem_cons_of_mem _ (hids x hx)

theorem duo_initial : Duo 1 0 (system (haresOnly 2 1)).initial [] [] (resting 1 0 10000000)
    (resting 0 0 0) where
  node_p := rfl
  node_q := rfl
  chan a b := by
    rw [ite_self, ite_self]
    rfl

/-- The second hare dances four times; the dance of the first hare after
1428568 others has the id of the first dance of the second. -/
theorem party_ids_clash : Accepted (haresOnly 2 1) ∧
    ∃ w, (system (haresOnly 2 1)).Reachable w ∧ ¬ (startIds w.past).Nodup := by
  refine ⟨haresOnly_accepted (by decide) (by decide), ?_⟩
  have h01 : (0 : Pid) ≠ 1 := by decide
  obtain ⟨w₁, hr₁, hw₁, hids₁⟩ := exists_round (by decide) (by decide) h01.symm (by decide)
    .init duo_initial
  obtain ⟨w₂, hr₂, hw₂, hids₂⟩ := exists_rounds (by decide) (by decide) h01.symm 3 (by decide)
    hr₁ hw₁
  obtain ⟨w₃, hr₃, hw₃, hids₃⟩ := exists_rounds (by decide) (by decide) h01 1428568 (by decide)
    hr₂ (hw₂.symm h01.symm)
  obtain ⟨w₄, hr₄, -, hids₄⟩ := exists_round (by decide) (by decide) h01 (by decide) hr₃ hw₃
  have hfirst : danceId 0 10000000 ∈ startIds w₁.past := by
    rw [hids₁]
    exact List.mem_cons_self ..
  have hsame : danceId (0 + 6 + 6 * 3 + 6 * 1428568) (0 + UInt32.ofNat 1428568) =
      danceId 0 10000000 := by
    decide
  refine ⟨w₄, hr₄, fun hnd => ?_⟩
  rw [hids₄, hsame] at hnd
  exact (List.nodup_cons.mp hnd).1 (hids₃ _ (hids₂ _ hfirst))

end Round

end HaresBears
