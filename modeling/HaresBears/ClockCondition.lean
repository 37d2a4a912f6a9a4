import HaresBears.ClockRules

/-!
Lamport's clock condition over whole runs in which no clock reaches its largest
value. Timestamps increase along happens-before, each process stamps its sends
in increasing order, and no two requests carry the same ticket.
-/
namespace HaresBears

open FifoNetwork LamportQueueAlgorithm

def kMaxTimestamp : Timestamp := 18446744073709551615

/-- No clock reaches the largest timestamp in the step from `w` to `w'`: neither
when the message is absorbed, nor on entering the queue, nor at the end. -/
def BelowMax (w : World) (l : Label) (w' : World) : Prop :=
  match l with
  | .deliver src dst _ =>
    (∀ m ∈ (w.chan src dst).head?,
      ((algo w dst).absorb src m).lamportClock.time ≠ kMaxTimestamp ∧
      ((algo w dst).absorb src m).settle.lamportClock.time ≠ kMaxTimestamp) ∧
    (algo w' dst).lamportClock.time ≠ kMaxTimestamp
  | .poll p _ => (algo w' p).lamportClock.time ≠ kMaxTimestamp

instance : ∀ w l w', Decidable (BelowMax w l w')
  | w, .deliver src dst _, w' => inferInstanceAs (Decidable ((∀ m ∈ (w.chan src dst).head?,
      ((algo w dst).absorb src m).lamportClock.time ≠ kMaxTimestamp ∧
      ((algo w dst).absorb src m).settle.lamportClock.time ≠ kMaxTimestamp) ∧
      (algo w' dst).lamportClock.time ≠ kMaxTimestamp))
  | _, .poll p _, w' => inferInstanceAs (Decidable ((algo w' p).lamportClock.time ≠ kMaxTimestamp))

section Bound

variable {cfg : Config} {w : World}

theorem ne_max_iff {t : Timestamp} : t ≠ kMaxTimestamp ↔ t.toNat < 2 ^ 64 - 1 := by
  have hlt := t.toNat_lt
  have hmax : kMaxTimestamp.toNat = 2 ^ 64 - 1 := rfl
  rw [ne_eq, ← UInt64.toNat_inj, hmax]
  omega

structure Bounded (w : World) : Prop where
  clock : ∀ p, (algo w p).lamportClock.time ≠ kMaxTimestamp
  chan : ∀ p q, ∀ m ∈ w.chan p q, m.ts ≠ kMaxTimestamp

theorem Bounded.react {w : World} (h : Bounded w) {p : Pid} {heard : Option (Pid × Message)}
    {res : Runtime × Sends} (hclock : res.1.algorithm.lamportClock.time ≠ kMaxTimestamp)
    (hout : ∀ pkt ∈ res.2, pkt.msg.ts ≠ kMaxTimestamp) : Bounded (w.react p heard res) where
  clock := by
    intro q
    by_cases hq : q = p
    · subst hq
      simpa only [algo, World.react_node_self] using hclock
    · simpa only [algo, World.react_node_ne _ _ _ hq] using h.clock q
  chan := by
    intro a b m hm
    rcases List.mem_append.mp hm with hold | hnew
    · exact h.chan a b m hold
    · split at hnew
      · obtain ⟨pkt, hpkt, -, rfl⟩ := mem_addressed.mp hnew
        exact hout pkt hpkt
      · cases hnew

theorem heard_below {r : Runtime} {env : Env} {src : Pid} {m : Message} {res : Runtime × Sends}
    (hh : Runtime.Heard r env src m res)
    (hclock : r.algorithm.lamportClock.time ≠ kMaxTimestamp) (hts : m.ts ≠ kMaxTimestamp)
    (habsorb : (r.algorithm.absorb src m).lamportClock.time ≠ kMaxTimestamp)
    (hsettle : (r.algorithm.absorb src m).settle.lamportClock.time ≠ kMaxTimestamp)
    (hafter : res.1.algorithm.lamportClock.time ≠ kMaxTimestamp) :
    time r ≤ time res.1 ∧ stamp m ≤ time res.1 ∧
      ∀ pkt ∈ res.2, pkt.msg.ts ≠ kMaxTimestamp := by
  have hans : ∀ pkt ∈ (r.algorithm.answer m).toList.map
      (fun x => (⟨[src], x⟩ : Packet Pid Message)), pkt.msg.ts ≠ kMaxTimestamp := by
    intro pkt hpkt
    have hts := answer_stamp hpkt
    rw [ne_max_iff] at habsorb ⊢
    simp only [stamp] at hts
    omega
  have hx := toNat_absorb r src m
  have hy := toNat_settle (r.algorithm.absorb src m)
  rw [ne_max_iff] at hclock hts habsorb hsettle
  cases hh with
  | stay a l ha _ _ _ =>
    subst ha
    dsimp only [time, stamp] at hx ⊢
    exact ⟨by omega, by omega, hans⟩
  | start a g ha _ _ =>
    subst ha
    have hz : ((r.algorithm.absorb src m).settle.afterStart g).lamportClock.time.toNat =
        ((r.algorithm.absorb src m).settle.lamportClock.time.toNat + 1) % 2 ^ 64 :=
      toNat_tick _
    refine ⟨?_, ?_, ?_⟩
    · dsimp only [time, stamp] at hx ⊢
      omega
    · dsimp only [time, stamp] at hx ⊢
      omega
    · intro pkt hpkt
      rcases List.mem_append.mp hpkt with hpkt | hpkt
      · exact hans pkt hpkt
      · obtain rfl := List.mem_singleton.mp hpkt
        exact hafter

theorem polled_below {r : Runtime} {env : Env} {res : Runtime × Sends}
    (hh : Runtime.Polled r env res) (hclock : r.algorithm.lamportClock.time ≠ kMaxTimestamp)
    (hafter : res.1.algorithm.lamportClock.time ≠ kMaxTimestamp) :
    time r ≤ time res.1 ∧ ∀ pkt ∈ res.2, pkt.msg.ts ≠ kMaxTimestamp := by
  have htick := toNat_tick r.algorithm.lamportClock
  rw [ne_max_iff] at hclock
  have hle : r.algorithm.lamportClock.time.toNat ≤ r.algorithm.lamportClock.tick.time.toNat := by
    omega
  cases hh with
  | nothing => exact ⟨Nat.le_refl _, by simp⟩
  | want _ =>
    refine ⟨hle, ?_⟩
    intro pkt hpkt
    obtain rfl := List.mem_singleton.mp hpkt
    exact hafter
  | release _ => exact ⟨hle, by simp⟩

/-- In a run in which no clock reaches the largest timestamp no clock wraps. -/
theorem noWrap_of_belowMax (h : (system cfg).Run BelowMax w) :
    (system cfg).Run NoWrap w ∧ Bounded w := by
  induction h with
  | init =>
    refine ⟨.init, fun p => ?_, fun p q m hm => (nomatch hm)⟩
    exact ne_max_iff.mpr (by simp [algo, Protocol.initial, system, LamportQueueAlgorithm.create])
  | @step w w' l hr hnext hk ih =>
    obtain ⟨hnw, hb⟩ := ih
    have hs := Sound.of_run hr
    rcases Protocol.next_cases hnext with
      ⟨src, dst, env, m, rest, rfl, hchan, rfl⟩ | ⟨p, env, rfl, hp, rfl⟩
    · obtain ⟨hmid, hafter⟩ := hk
      obtain ⟨habsorb, hsettle⟩ := hmid m (by simp [hchan])
      simp only [algo, Protocol.hear_node_self] at hafter
      obtain ⟨hclock, hheard, hout⟩ := heard_below
        (Runtime.onMsg_heard (w.node dst) env src m (hs.notReady dst)) (hb.clock dst)
        (hb.chan src dst m (by simp [hchan])) habsorb hsettle hafter
      refine ⟨.step hnw hnext ⟨?_, ?_⟩, ?_⟩
      · rw [Protocol.hear_node_self]
        exact hclock
      · intro x hx
        rw [hchan] at hx
        obtain rfl := Option.some.inj hx
        rw [Protocol.hear_node_self]
        exact hheard
      · refine Bounded.react (w := w.consume src dst rest) ⟨hb.clock, ?_⟩ hafter hout
        intro a b x hx
        unfold World.consume at hx
        dsimp only at hx
        split at hx
        · exact hb.chan src dst x (by simp [hchan, hx])
        · exact hb.chan a b x hx
    · have hafter : (algo ((system cfg).turn w p env) p).lamportClock.time ≠ kMaxTimestamp := hk
      simp only [algo, Protocol.turn_node_self] at hafter
      obtain ⟨hclock, hout⟩ := polled_below ((hs.inStep p).onPoll env) (hb.clock p) hafter
      refine ⟨.step hnw hnext ?_, hb.react hafter hout⟩
      change time (w.node p) ≤ time (((system cfg).turn w p env).node p)
      rw [Protocol.turn_node_self]
      exact hclock

end Bound

section Condition

variable {cfg : Config} {w : World}

/-- A request carries a ticket of the process that sends it. -/
theorem request_pid {ok : World → Label → World → Prop} (h : (system cfg).Run ok w) {c : Call}
    (hc : c ∈ w.past) {pkt : Packet Pid Message} (hpkt : pkt ∈ c.out) {x : Request}
    (hx : pkt.msg = .request x) : x.requestTicket.pid = c.proc := by
  obtain ⟨hcoh, -, hexp⟩ := explained_of_run h c hc
  cases hexp.sent hpkt with
  | answer src m y _ hy hp =>
    obtain ⟨z, -, rfl⟩ := answer_eq_some hy
    subst hp
    cases hx
  | start src m g _ _ _ _ hp =>
    subst hp
    cases hx
  | want _ _ _ hp =>
    subst hp
    obtain rfl := Message.request.inj hx
    exact hcoh.myPid

theorem request_pid_act {ok : World → Label → World → Prop} (h : (system cfg).Run ok w) {i : ℕ}
    {p : Pid} {pkt : Packet Pid Message} (hi : (acts w.past)[i]? = some (.send p pkt))
    {x : Request} (hx : pkt.msg = .request x) : x.requestTicket.pid = p := by
  obtain ⟨c, hc, ha⟩ := List.mem_flatMap.mp (List.mem_of_getElem? hi)
  rw [List.mem_reverse] at hc
  unfold Call.acts at ha
  rcases List.mem_append.mp ha with ha | ha
  · cases hh : c.heard <;> simp [hh] at ha
  · obtain ⟨q, hq, heq⟩ := List.mem_map.mp ha
    obtain ⟨rfl, rfl⟩ := Act.send.inj heq
    exact request_pid h hc hq hx

/-- The clock condition: along happens-before timestamps increase, each process
sends with increasing timestamps, and two requests never carry the same ticket. -/
theorem timestamps_follow_happensBefore (h : (system cfg).Run BelowMax w) :
    (∀ (i j : ℕ) (p q : Pid) (e f : Packet Pid Message), HappensBefore (acts w.past) i j →
      (acts w.past)[i]? = some (Act.send p e) → (acts w.past)[j]? = some (Act.send q f) →
      e.msg.ts < f.msg.ts) ∧
    (∀ p, (sends w.past p).Pairwise (fun e f => e.msg.ts < f.msg.ts)) ∧
    ∀ (i j : ℕ) (p q : Pid) (e f : Packet Pid Message) (x y : Request),
      (acts w.past)[i]? = some (Act.send p e) → (acts w.past)[j]? = some (Act.send q f) →
      e.msg = .request x → f.msg = .request y → x.requestTicket = y.requestTicket → i = j := by
  have hnw := (noWrap_of_belowMax h).1
  have hd := disciplined_of_run hnw
  have hcond : ∀ i j p q e f, HappensBefore (acts w.past) i j →
      (acts w.past)[i]? = some (.send p e) → (acts w.past)[j]? = some (.send q f) →
      e.msg.ts < f.msg.ts := by
    intro i j p q e f hb hi hj
    exact UInt64.lt_iff_toNat_lt.mpr (clock_condition hnw hd hb hi hj)
  refine ⟨hcond, fun p => ?_, ?_⟩
  · exact (sends_sorted hnw hd p).1.imp (fun hlt => UInt64.lt_iff_toNat_lt.mpr hlt)
  · intro i j p q e f x y hi hj hx hy hxy
    have hp := request_pid_act h hi hx
    have hq := request_pid_act h hj hy
    have hpq : p = q := by rw [← hp, ← hq, hxy]
    subst hpq
    have hts : e.msg.ts = f.msg.ts := by
      rw [hx, hy]
      exact congrArg Ticket.ts hxy
    rcases Nat.lt_trichotomy i j with hij | hij | hij
    · have hlt := hcond i j p p e f (.program hij hi hj rfl) hi hj
      exact absurd (hts ▸ hlt) (UInt64.lt_irrefl _)
    · exact hij
    · have hlt := hcond j i p p f e (.program hij hj hi rfl) hj hi
      exact absurd (hts ▸ hlt) (UInt64.lt_irrefl _)

/-- The sends of a queued hare that answers a request and starts a party with it
carry the times 1, 5 and 6. -/
theorem timestamps_follow_happensBefore_pair :
    ∃ w, (system (haresOnly 2 2)).Run BelowMax w ∧
      (sends w.past 0).map (fun pkt => pkt.msg.ts) = [1, 5, 6] ∧
      (sends w.past 0).Pairwise (fun e f => e.msg.ts < f.msg.ts) := by
  obtain ⟨w, hrun, hts⟩ := Protocol.exists_of_exec (system (haresOnly 2 2)) BelowMax
    [want 0, hand 0 1, hand 1 0, want 1, hand 1 0]
    (fun w => (sends w.past 0).map (fun pkt => pkt.msg.ts) = [1, 5, 6]) (by decide +kernel)
  exact ⟨w, hrun, hts, (timestamps_follow_happensBefore hrun).2.1 0⟩

end Condition

end HaresBears
