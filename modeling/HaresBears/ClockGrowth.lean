import HaresBears.ClockRules
import HaresBears.InFlight

/-!
How fast clocks grow. A call moves a clock at most three past all clocks and timestamps
there are, so a clock has wrapped only in a run of some 6 * 10 ^ 18 steps.
-/
namespace HaresBears

open FifoNetwork LamportQueueAlgorithm

structure ClocksBelow (b : ℕ) (w : World) : Prop where
  node : ∀ p, time (w.node p) ≤ b
  chan : ∀ p q, ∀ m ∈ w.chan p q, stamp m ≤ b

section Growth

variable {cfg : Config} {w : World} {ok : World → Label → World → Prop} {b : ℕ} {r : Runtime}
variable {env : Env} {src dst p : Pid} {m : Message} {rest : List Message} {res : Runtime × Sends}

/-- The clock after a message: one step for the message, one for entering the queue and
one for starting a party. -/
theorem time_heard (hh : Runtime.Heard r env src m res) (hr : time r ≤ b) (hm : stamp m ≤ b)
    (hroom : b + 3 < 2 ^ 64) :
    time r ≤ time res.1 ∧ stamp m ≤ time res.1 ∧ time res.1 ≤ b + 3 := by
  have habsorb := toNat_absorb r src m
  have hsettle := toNat_settle (r.algorithm.absorb src m)
  cases hh with
  | stay a l ha _ _ _ =>
    subst ha
    dsimp only [time] at hr habsorb ⊢
    omega
  | start a g ha _ _ =>
    subst ha
    have htick := toNat_tick (r.algorithm.absorb src m).settle.lamportClock
    dsimp only [time, afterStart] at hr habsorb ⊢
    omega

theorem time_polled (hh : Runtime.Polled r env res) (hr : time r ≤ b) (hroom : b + 1 < 2 ^ 64) :
    time r ≤ time res.1 ∧ time res.1 ≤ b + 1 := by
  have htick := toNat_tick r.algorithm.lamportClock
  cases hh with
  | nothing => exact ⟨Nat.le_refl _, Nat.le_succ_of_le hr⟩
  | want _ | release _ =>
    dsimp only [time, afterWant, afterRelease] at hr ⊢
    omega

/-- A delivery moves the bound by at most three, and no clock wraps within it. -/
theorem ClocksBelow.hear (hs : Sound cfg w) (h : ClocksBelow b w)
    (hchan : w.chan src dst = m :: rest) (hroom : b + 3 < 2 ^ 64) (env : Env) :
    NoWrap w (.deliver src dst env) ((system cfg).hear w src dst env m rest) ∧
      ClocksBelow (b + 3) ((system cfg).hear w src dst env m rest) := by
  have hheard := Runtime.onMsg_heard (w.node dst) env src m (hs.notReady dst)
  have hm : stamp m ≤ b := h.chan src dst m (by simp [hchan])
  obtain ⟨hclock, hstamp, hle⟩ := time_heard hheard (h.node dst) hm hroom
  have hsent := (disciplined_heard (p := dst) hheard hclock hstamp).current
  refine ⟨⟨?_, ?_⟩, ?_, ?_⟩
  · rw [Protocol.hear_node_self]
    exact hclock
  · intro x hx
    rw [hchan] at hx
    obtain rfl := Option.some.inj hx
    rw [Protocol.hear_node_self]
    exact hstamp
  · refine Protocol.hear_nodes (I := fun _ r => time r ≤ b + 3) ?_ hle
    exact fun q => Nat.le_add_right_of_le (h.node q)
  · refine Protocol.hear_chans (J := fun _ _ x => stamp x ≤ b + 3) hchan ?_ ?_
    · exact fun a c x hx => Nat.le_add_right_of_le (h.chan a c x hx)
    · intro c x hx
      obtain ⟨pkt, hpkt, -, rfl⟩ := mem_addressed.mp hx
      exact Nat.le_trans (hsent pkt hpkt) hle

theorem ClocksBelow.turn (hs : Sound cfg w) (h : ClocksBelow b w) (hroom : b + 1 < 2 ^ 64)
    (p : Pid) (env : Env) :
    NoWrap w (.poll p env) ((system cfg).turn w p env) ∧
      ClocksBelow (b + 1) ((system cfg).turn w p env) := by
  have hpolled := (hs.inStep p).onPoll env
  obtain ⟨hclock, hle⟩ := time_polled hpolled (h.node p) hroom
  have hsent := (disciplined_polled (p := p) hpolled hclock).current
  refine ⟨?_, ?_, ?_⟩
  · change time (w.node p) ≤ time _
    rw [Protocol.turn_node_self]
    exact hclock
  · refine Protocol.turn_nodes (I := fun _ r => time r ≤ b + 1) ?_ hle
    exact fun q => Nat.le_add_right_of_le (h.node q)
  · refine Protocol.turn_chans (J := fun _ _ x => stamp x ≤ b + 1) ?_ ?_
    · exact fun a c x hx => Nat.le_add_right_of_le (h.chan a c x hx)
    · intro c x hx
      obtain ⟨pkt, hpkt, -, rfl⟩ := mem_addressed.mp hx
      exact Nat.le_trans (hsent pkt hpkt) hle

theorem clocksBelow_initial (cfg : Config) : ClocksBelow 0 (system cfg).initial where
  node := fun _ => Nat.le_refl _
  chan := fun _ _ _ hm => nomatch hm

/-- In a short run no clock wraps, and the bound is three for each step. -/
theorem clocksBelow_of_run (h : (system cfg).Run ok w) (hsteps : 3 * w.past.length < 2 ^ 64) :
    (system cfg).Run (fun w l w' => NoWrap w l w' ∧ ok w l w') w ∧
      ClocksBelow (3 * w.past.length) w := by
  revert hsteps
  refine Protocol.Run.invariant (I := fun w => 3 * w.past.length < 2 ^ 64 →
    (system cfg).Run (fun w l w' => NoWrap w l w' ∧ ok w l w') w ∧
      ClocksBelow (3 * w.past.length) w) ?_ ?_ ?_ h
  · exact fun _ => ⟨.init, clocksBelow_initial cfg⟩
  · intro w src dst env m rest hr ih hchan hok hlt
    rw [Protocol.hear_past, List.length_cons, Nat.mul_add] at hlt ⊢
    obtain ⟨hrun, hbelow⟩ := ih (by omega)
    obtain ⟨hwrap, hbelow'⟩ := hbelow.hear (Sound.of_run hr) hchan (by omega) env
    refine ⟨.step (l := .deliver src dst env) hrun ?_ ⟨hwrap, hok⟩, hbelow'⟩
    simp only [Protocol.next, hchan]
  · intro w p env hr ih hp hok hlt
    rw [Protocol.turn_past, List.length_cons, Nat.mul_add] at hlt ⊢
    obtain ⟨hrun, hbelow⟩ := ih (by omega)
    obtain ⟨hwrap, hnode, hchan⟩ :=
      hbelow.turn (Sound.of_run hr) (by omega) p env
    refine ⟨.step (l := .poll p env) hrun (if_pos hp) ⟨hwrap, hok⟩, ?_, ?_⟩
    · exact fun q => Nat.le_trans (hnode q) (by omega)
    · exact fun a c m hm => Nat.le_trans (hchan a c m hm) (by omega)

/-- Clocks grow slowly: after `n` steps no clock and no timestamp in flight is past
`3 * n`, so as long as that is below the bound of the clocks, none has wrapped. -/
theorem no_wrap_before (h : (system cfg).Run ok w) (hsteps : 3 * w.past.length < 2 ^ 64) :
    (system cfg).Run (fun w l w' => NoWrap w l w' ∧ ok w l w') w ∧
      (∀ p, time (w.node p) ≤ 3 * w.past.length) ∧
      ∀ p q, ∀ m ∈ w.chan p q, stamp m ≤ 3 * w.past.length := by
  obtain ⟨hrun, hbelow⟩ := clocksBelow_of_run h hsteps
  exact ⟨hrun, hbelow.node, hbelow.chan⟩

/-- Two hares form a party in five steps. -/
theorem no_wrap_before_pair : ∃ w, w.past.length = 5 ∧ time (w.node 0) = 5 ∧
    (system (haresOnly 2 2)).Run (fun w l w' => NoWrap w l w' ∧ True) w ∧
    ∀ p, time (w.node p) ≤ 15 := by
  obtain ⟨w, hrun, hlen, htime⟩ := Protocol.exists_of_exec (system (haresOnly 2 2))
    (fun _ _ _ => True) [want 0, want 1, hand 0 1, hand 1 0, hand 1 0]
    (fun w => w.past.length = 5 ∧ time (w.node 0) = 5) (by decide +kernel)
  obtain ⟨hwrap, hbelow, -⟩ := no_wrap_before hrun (by rw [hlen]; decide)
  rw [hlen] at hbelow
  exact ⟨w, hlen, htime, hwrap, hbelow⟩

end Growth

end HaresBears
