import HaresBears.Coherence
import HaresBears.HappensBefore

/-!
Lamport's clock rules for the handlers. A reaction moves the clock one past what
it hears, once more on entering the queue and once more on starting a party, and
stamps each message with the value reached so far. Where no clock wraps, every
call of the system is disciplined.
-/
namespace HaresBears

open FifoNetwork LamportQueueAlgorithm

abbrev time (r : Runtime) : ℕ := r.algorithm.lamportClock.time.toNat

abbrev stamp (m : Message) : ℕ := m.ts.toNat

/-- No clock wraps in the step from `w` to `w'`. A clock that wraps comes to
stand at most at 2 and falls behind its old value or behind the message heard. -/
def NoWrap (w : World) (l : Label) (w' : World) : Prop :=
  match l with
  | .deliver src dst _ => time (w.node dst) ≤ time (w'.node dst) ∧
      ∀ m ∈ (w.chan src dst).head?, stamp m ≤ time (w'.node dst)
  | .poll p _ => time (w.node p) ≤ time (w'.node p)

instance : ∀ w l w', Decidable (NoWrap w l w')
  | w, .deliver src dst _, w' => inferInstanceAs (Decidable (
      time (w.node dst) ≤ time (w'.node dst) ∧
      ∀ m ∈ (w.chan src dst).head?, stamp m ≤ time (w'.node dst)))
  | w, .poll p _, w' => inferInstanceAs (Decidable (time (w.node p) ≤ time (w'.node p)))

section Clock

variable {a : LamportQueueAlgorithm} {src : Pid} {m : Message}

theorem toNat_tick (c : LamportClock) : c.tick.time.toNat = (c.time.toNat + 1) % 2 ^ 64 := by
  simp [LamportClock.tick, UInt64.toNat_add]

theorem toNat_onReceive (c : LamportClock) (t : Timestamp) :
    (c.onReceive t).time.toNat = (max c.time.toNat t.toNat + 1) % 2 ^ 64 := by
  have hmax : (max c.time t).toNat = max c.time.toNat t.toNat := by
    change (if c.time ≤ t then t else c.time).toNat = _
    rw [apply_ite UInt64.toNat, Nat.max_def]
    simp only [UInt64.le_iff_toNat_le]
  simp [LamportClock.onReceive, UInt64.toNat_add, hmax]

theorem absorb_clock (a : LamportQueueAlgorithm) (src : Pid) (m : Message) :
    (a.absorb src m).lamportClock = a.lamportClock.onReceive m.ts := by
  cases m with
  | request x => rfl
  | reply x =>
    simp only [absorb]
    split <;> rfl
  | partyStart x =>
    simp only [absorb]
    split <;> rfl

theorem settle_clock (a : LamportQueueAlgorithm) :
    a.settle.lamportClock = a.lamportClock ∨ a.settle.lamportClock = a.lamportClock.tick := by
  unfold settle
  split
  · exact Or.inr rfl
  · exact Or.inl rfl

theorem toNat_absorb (r : Runtime) (src : Pid) (m : Message) :
    (r.algorithm.absorb src m).lamportClock.time.toNat =
      (max (time r) (stamp m) + 1) % 2 ^ 64 := by
  rw [absorb_clock, toNat_onReceive]

theorem toNat_settle (a : LamportQueueAlgorithm) :
    a.settle.lamportClock.time.toNat = a.lamportClock.time.toNat ∨
      a.settle.lamportClock.time.toNat = (a.lamportClock.time.toNat + 1) % 2 ^ 64 := by
  rcases settle_clock a with h | h
  · exact Or.inl (by rw [h])
  · exact Or.inr (by rw [h, toNat_tick])

theorem answer_ts {x : Message} (hx : x ∈ (a.answer m).toList) :
    x.ts = (a.lamportClock.onReceive m.ts).time := by
  cases m with
  | request y =>
    simp only [answer, Option.toList_some, List.mem_singleton] at hx
    subst hx
    rfl
  | reply | partyStart => simp [answer] at hx

end Clock

section Calls

variable {r : Runtime} {env : Env} {src p : Pid} {m : Message} {res : Runtime × Sends}

structure Readings (r : Runtime) (src : Pid) (m : Message) (z : ℕ) : Prop where
  before : time r < (r.algorithm.absorb src m).lamportClock.time.toNat
  heard : stamp m < (r.algorithm.absorb src m).lamportClock.time.toNat
  settle : (r.algorithm.absorb src m).lamportClock.time.toNat ≤
    (r.algorithm.absorb src m).settle.lamportClock.time.toNat
  after : (r.algorithm.absorb src m).settle.lamportClock.time.toNat ≤ z
  start : z = ((r.algorithm.absorb src m).settle.lamportClock.time.toNat + 1) % 2 ^ 64 →
    (r.algorithm.absorb src m).settle.lamportClock.time.toNat < z

theorem readings {z : ℕ}
    (hz : z = (r.algorithm.absorb src m).settle.lamportClock.time.toNat ∨
      z = ((r.algorithm.absorb src m).settle.lamportClock.time.toNat + 1) % 2 ^ 64)
    (hclock : time r ≤ z) (hheard : stamp m ≤ z) : Readings r src m z := by
  have hbl := r.algorithm.lamportClock.time.toNat_lt
  have htl := m.ts.toNat_lt
  have hx := toNat_absorb r src m
  have hy := toNat_settle (r.algorithm.absorb src m)
  constructor <;> omega

theorem answer_stamp {pkt : Packet Pid Message}
    (hpkt : pkt ∈ (r.algorithm.answer m).toList.map (fun x => (⟨[src], x⟩ : Packet Pid Message))) :
    stamp pkt.msg = (r.algorithm.absorb src m).lamportClock.time.toNat := by
  obtain ⟨x, hx, rfl⟩ := List.mem_map.mp hpkt
  rw [absorb_clock, stamp, answer_ts hx]

theorem answer_pairwise (r : Runtime) (src : Pid) (m : Message) :
    ((r.algorithm.answer m).toList.map (fun x => (⟨[src], x⟩ : Packet Pid Message))).Pairwise
      (fun x y => stamp x.msg < stamp y.msg) := by
  cases r.algorithm.answer m <;> simp

theorem disciplined_stay {l : LocalThread}
    (hclock : time r ≤ time ⟨(r.algorithm.absorb src m).settle, l⟩)
    (hheard : stamp m ≤ time ⟨(r.algorithm.absorb src m).settle, l⟩) :
    Disciplined time stamp (⟨p, some (src, m), r, ⟨(r.algorithm.absorb src m).settle, l⟩,
      (r.algorithm.answer m).toList.map (fun x => ⟨[src], x⟩)⟩ : Call) := by
  obtain ⟨h1, h2, h3, -, -⟩ := readings (Or.inl rfl) hclock hheard
  refine ⟨hclock, answer_pairwise r src m, ?_, ?_, ?_, ?_⟩
  · intro pkt hpkt
    rw [answer_stamp hpkt]
    exact h1
  · intro pkt hpkt
    rw [answer_stamp hpkt]
    exact h3
  · intro s x hsx
    obtain ⟨-, rfl⟩ := Prod.mk.inj (Option.some.inj hsx)
    exact ⟨Nat.lt_of_lt_of_le h1 h3, Nat.lt_of_lt_of_le h2 h3⟩
  · intro s x hsx pkt hpkt
    obtain ⟨-, rfl⟩ := Prod.mk.inj (Option.some.inj hsx)
    rw [answer_stamp hpkt]
    exact h2

theorem disciplined_start {g : List Pid} {l : LocalThread}
    (hclock : time r ≤ time ⟨(r.algorithm.absorb src m).settle.afterStart g, l⟩)
    (hheard : stamp m ≤ time ⟨(r.algorithm.absorb src m).settle.afterStart g, l⟩) :
    Disciplined time stamp (⟨p, some (src, m), r,
      ⟨(r.algorithm.absorb src m).settle.afterStart g, l⟩,
      (r.algorithm.answer m).toList.map (fun x => ⟨[src], x⟩) ++
        [⟨broadcastDests (r.algorithm.absorb src m).settle.myPid
          (r.algorithm.absorb src m).settle.cfg.worldSize,
          .partyStart ((r.algorithm.absorb src m).settle.startOf g)⟩]⟩ : Call) := by
  have hz : ((r.algorithm.absorb src m).settle.afterStart g).lamportClock.time.toNat =
      ((r.algorithm.absorb src m).settle.lamportClock.time.toNat + 1) % 2 ^ 64 :=
    toNat_tick _
  obtain ⟨h1, h2, h3, h4, h5⟩ := readings (Or.inr hz) hclock hheard
  have hstart : stamp (.partyStart ((r.algorithm.absorb src m).settle.startOf g)) =
      ((r.algorithm.absorb src m).settle.afterStart g).lamportClock.time.toNat := rfl
  have hlt := h5 hz
  have hout : ∀ pkt ∈ (r.algorithm.answer m).toList.map
        (fun x => (⟨[src], x⟩ : Packet Pid Message)) ++
      [⟨broadcastDests (r.algorithm.absorb src m).settle.myPid
        (r.algorithm.absorb src m).settle.cfg.worldSize,
        .partyStart ((r.algorithm.absorb src m).settle.startOf g)⟩],
      (r.algorithm.absorb src m).lamportClock.time.toNat ≤ stamp pkt.msg ∧
        stamp pkt.msg ≤
          ((r.algorithm.absorb src m).settle.afterStart g).lamportClock.time.toNat := by
    intro pkt hpkt
    rcases List.mem_append.mp hpkt with hpkt | hpkt
    · rw [answer_stamp hpkt]
      omega
    · obtain rfl := List.mem_singleton.mp hpkt
      dsimp only
      omega
  refine ⟨hclock, ?_, ?_, ?_, ?_, ?_⟩
  · refine List.pairwise_append.mpr ⟨answer_pairwise r src m, List.pairwise_singleton .., ?_⟩
    intro x hx y hy
    obtain rfl := List.mem_singleton.mp hy
    rw [answer_stamp hx]
    dsimp only
    omega
  · intro pkt hpkt
    exact Nat.lt_of_lt_of_le h1 (hout pkt hpkt).1
  · exact fun pkt hpkt => (hout pkt hpkt).2
  · intro s x hsx
    obtain ⟨-, rfl⟩ := Prod.mk.inj (Option.some.inj hsx)
    have hle := Nat.le_trans h3 h4
    exact ⟨Nat.lt_of_lt_of_le h1 hle, Nat.lt_of_lt_of_le h2 hle⟩
  · intro s x hsx pkt hpkt
    obtain ⟨-, rfl⟩ := Prod.mk.inj (Option.some.inj hsx)
    exact Nat.lt_of_lt_of_le h2 (hout pkt hpkt).1

theorem disciplined_heard (hh : Runtime.Heard r env src m res)
    (hclock : time r ≤ time res.1) (hheard : stamp m ≤ time res.1) :
    Disciplined time stamp (⟨p, some (src, m), r, res.1, res.2⟩ : Call) := by
  cases hh with
  | stay a l ha _ _ _ =>
    subst ha
    exact disciplined_stay hclock hheard
  | start a g ha _ _ =>
    subst ha
    exact disciplined_start hclock hheard

theorem disciplined_polled (hh : Runtime.Polled r env res) (hclock : time r ≤ time res.1) :
    Disciplined time stamp (⟨p, none, r, res.1, res.2⟩ : Call) := by
  cases hh with
  | nothing => constructor <;> simp
  | want _ =>
    have htick := toNat_tick r.algorithm.lamportClock
    have hbl := r.algorithm.lamportClock.time.toNat_lt
    have hts : stamp (.request ⟨⟨r.algorithm.myPid, r.algorithm.lamportClock.tick.now⟩⟩) =
        r.algorithm.afterWant.lamportClock.time.toNat := rfl
    have hlt : time r < r.algorithm.afterWant.lamportClock.time.toNat := by
      change r.algorithm.lamportClock.time.toNat < r.algorithm.lamportClock.tick.time.toNat
      change r.algorithm.lamportClock.time.toNat ≤ r.algorithm.lamportClock.tick.time.toNat
        at hclock
      omega
    refine ⟨hclock, List.pairwise_singleton .., ?_, ?_, by simp, by simp⟩
    · intro pkt hpkt
      obtain rfl := List.mem_singleton.mp hpkt
      exact hlt
    · intro pkt hpkt
      obtain rfl := List.mem_singleton.mp hpkt
      exact Nat.le_refl _
  | release _ => exact ⟨hclock, List.Pairwise.nil, by simp, by simp, by simp, by simp⟩

end Calls

section System

variable {cfg : Config} {w : World}

/-- Every call of a run in which no clock wraps is disciplined. -/
theorem disciplined_of_run (h : (system cfg).Run NoWrap w) :
    ∀ c ∈ w.past, Disciplined time stamp c := by
  refine Protocol.Run.invariant (I := fun w => ∀ c ∈ w.past, Disciplined time stamp c)
    (by simp [Protocol.initial]) ?_ ?_ h
  · intro w src dst env m rest hr ih hc hok c hm
    rcases List.mem_cons.mp hm with rfl | hm
    · have hsound := Sound.of_run hr
      have hheard := Runtime.onMsg_heard (w.node dst) env src m (hsound.notReady dst)
      have hclock := hok.1
      have hts := hok.2 m (by simp [hc])
      simp only [Protocol.hear_node_self] at hclock hts
      exact disciplined_heard hheard hclock hts
    · exact ih c hm
  · intro w p env hr ih hp hok c hm
    rcases List.mem_cons.mp hm with rfl | hm
    · have hpolled := ((Sound.of_run hr).inStep p).onPoll env
      have hclock : time (w.node p) ≤ _ := hok
      simp only [Protocol.turn_node_self] at hclock
      exact disciplined_polled hpolled hclock
    · exact ih c hm

end System

end HaresBears
