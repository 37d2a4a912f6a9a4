import HaresBears.InFlight
import HaresBears.PartySafety

/-!
Cascades of deliveries. A message handed over causes at most one reply and one
party start, and a process that starts a party leaves the line. So between two
polls only finitely many messages can be handed over, and whatever their order,
the network falls silent.
-/
namespace HaresBears

open FifoNetwork LamportQueueAlgorithm

def everyone (worldSize : Pid) : Finset Pid := (processes worldSize).toFinset

section Everyone

variable {n p q src : Pid} {a : LamportQueueAlgorithm} {m : Message}

@[simp] theorem mem_everyone : q ∈ everyone n ↔ q < n := by
  rw [everyone, List.mem_toFinset, mem_processes]

theorem processes_nodup (n : Pid) : (processes n).Nodup := by
  refine List.Nodup.map_on ?_ List.nodup_range
  intro x hx y hy hxy
  rw [List.mem_range] at hx hy
  have hnat := congrArg UInt32.toNat hxy
  rwa [UInt32.toNat_ofNat_of_lt' (Nat.lt_trans hx n.toNat_lt),
    UInt32.toNat_ofNat_of_lt' (Nat.lt_trans hy n.toNat_lt)] at hnat

theorem card_everyone (n : Pid) : (everyone n).card = n.toNat := by
  rw [everyone, List.toFinset_card_of_nodup (processes_nodup n), processes, List.length_map,
    List.length_range]

theorem card_others (hp : p < n) : ((everyone n).erase p).card = n.toNat - 1 := by
  rw [Finset.card_erase_of_mem (mem_everyone.mpr hp), card_everyone]

theorem dispatched_broadcast (f : Pid → Message → ℕ) (p : Pid) (m : Message) :
    dispatched (everyone n) f [⟨broadcastDests p n, m⟩] =
      ∑ q ∈ (everyone n).erase p, f q m := by
  rw [dispatched_singleton]
  refine Finset.sum_congr ?_ (fun _ _ => rfl)
  ext q
  rw [Finset.mem_filter, Finset.mem_erase, mem_everyone, mem_broadcastDests]
  tauto

theorem dispatched_answer (f : Pid → Message → ℕ) (hsrc : src < n) :
    dispatched (everyone n) f ((a.answer m).toList.map (fun x => ⟨[src], x⟩)) =
      (a.answer m).elim 0 (f src) := by
  cases a.answer m with
  | none => exact dispatched_nil
  | some x =>
    rw [Option.toList_some, List.map_singleton, dispatched_singleton, Option.elim]
    have honly : (everyone n).filter (fun b => b ∈ [src]) = {src} := by
      ext b
      simp only [Finset.mem_filter, mem_everyone, List.mem_singleton, Finset.mem_singleton]
      constructor
      · exact fun h => h.2
      · exact fun h => ⟨h ▸ hsrc, h⟩
    rw [honly, Finset.sum_singleton]

end Everyone

/-- The handovers a message is good for: its own, and that of the reply to a request. -/
def Message.effort : Message → ℕ
  | .request _ => 2
  | .reply _ => 1
  | .partyStart _ => 1

def unserved (cfg : Config) (w : World) : ℕ :=
  w.census (everyone cfg.worldSize) (fun r => Unserved r.algorithm)

/-- A bound on the handovers to come before the next poll. An unserved process may
still start a party, with a message to each other process. -/
def effort (cfg : Config) (w : World) : ℕ :=
  w.load (everyone cfg.worldSize) (fun _ => Message.effort) +
    cfg.worldSize.toNat * unserved cfg w

section Cascade

variable {cfg : Config} {w : World} {r : Runtime} {env : Env} {src p : Pid} {m : Message}
variable {res : Runtime × Sends}

theorem Sound.within (hs : Sound cfg w) : w.Within (everyone cfg.worldSize) := by
  intro a b hne
  obtain ⟨m, rest, hm⟩ := List.exists_cons_of_ne_nil hne
  have hp := hs.proper a b m (by simp [hm])
  exact ⟨mem_everyone.mpr hp.src_live, mem_everyone.mpr hp.dst_live⟩

theorem effort_answer (a : LamportQueueAlgorithm) (m : Message) :
    (a.answer m).elim 0 Message.effort < m.effort := by
  cases m <;> simp [answer, Message.effort]

/-- A message takes a process out of the line only if it names it, and into it never. -/
theorem unserved_absorb : Unserved (r.algorithm.absorb src m).settle ↔
    ¬ m.Names r.algorithm.myPid ∧ Unserved r.algorithm := by
  have hset := settle_state (r.algorithm.absorb src m)
  by_cases hn : m.Names r.algorithm.myPid
  · have hstate := absorb_state_named src hn
    rw [settle_of_ne (by simp [hstate])]
    simp [Unserved, hstate, hn]
  · rw [absorb_state src hn] at hset
    rcases hset with hsame | ⟨hwait, hqueued⟩
    · simp [Unserved, hsame, hn]
    · simp [Unserved, hwait, hqueued, hn]

/-- What a message sends out weighs less than the message, unless its receiver leaves
the line with a party. -/
theorem effort_heard (hc : Coherent cfg p r.algorithm) (hm : Proper cfg src p m)
    (hh : Runtime.Heard r env src m res) :
    dispatched (everyone cfg.worldSize) (fun _ => Message.effort) res.2 < m.effort ∧
        (Unserved res.1.algorithm → Unserved r.algorithm) ∨
      dispatched (everyone cfg.worldSize) (fun _ => Message.effort) res.2 <
          m.effort + cfg.worldSize.toNat ∧
        Unserved r.algorithm ∧ ¬ Unserved res.1.algorithm := by
  have hans := effort_answer r.algorithm m
  have hsend := dispatched_answer (a := r.algorithm) (m := m) (fun _ => Message.effort) hm.src_live
  cases hh with
  | stay a l ha _ _ _ =>
    left
    subst ha
    dsimp only
    rw [hsend]
    exact ⟨hans, fun hu => (unserved_absorb.mp hu).2⟩
  | start a g ha hr _ =>
    right
    have hset : Coherent cfg p a := ha ▸ (hc.absorb hm).settle
    have hstart := dispatched_broadcast (n := cfg.worldSize) (fun _ => Message.effort) a.myPid
      (.partyStart (a.startOf g))
    have hcard := card_others hm.dst_live
    rw [Finset.sum_const, hset.myPid, hcard, Nat.nsmul_eq_mul, Message.effort,
      Nat.mul_one] at hstart
    dsimp only
    refine ⟨?_, ?_, by simp [Unserved, afterStart]⟩
    · rw [dispatched_append, hsend, hset.config, hset.myPid, hstart]
      omega
    · subst ha
      exact (unserved_absorb.mp (Or.inr hr.queued)).2

/-- Every handover brings the effort down. -/
theorem effort_hear (h : (system cfg).Reachable w) {dst : Pid} {rest : List Message}
    (hchan : w.chan src dst = m :: rest) (env : Env) :
    effort cfg ((system cfg).hear w src dst env m rest) < effort cfg w := by
  have hs := Sound.of_run h
  have hm := hs.proper src dst m (by simp [hchan])
  have hdst := mem_everyone.mpr hm.dst_live
  have hload := Protocol.load_hear (P := system cfg) (f := fun _ => Message.effort)
    (mem_everyone.mpr hm.src_live) hdst hchan env
  have hcensus : unserved cfg ((system cfg).hear w src dst env m rest) + _ = unserved cfg w + _ :=
    Protocol.census_hear (U := fun r : Runtime => Unserved r.algorithm) hdst env
  have heffort := effort_heard (hs.coherent dst) hm
    (Runtime.onMsg_heard (w.node dst) env src m (hs.notReady dst))
  rw [← system_onMsg cfg dst] at heffort
  unfold effort
  rcases heffort with ⟨hlt, hkeep⟩ | ⟨hlt, hbefore, hafter⟩
  · have hle : unserved cfg ((system cfg).hear w src dst env m rest) ≤ unserved cfg w := by
      by_cases hafter : Unserved ((system cfg).onMsg dst (w.node dst) env src m).1.algorithm
      · rw [if_pos hafter, if_pos (hkeep hafter)] at hcensus
        omega
      · rw [if_neg hafter] at hcensus
        omega
    have hmul := Nat.mul_le_mul_left cfg.worldSize.toNat hle
    omega
  · have hdrop : unserved cfg ((system cfg).hear w src dst env m rest) + 1 =
        unserved cfg w := by
      rw [if_pos hbefore, if_neg hafter] at hcensus
      exact hcensus
    rw [← hdrop, Nat.mul_add, Nat.mul_one]
    omega

theorem draining (cfg : Config) (ok : World → Label → World → Prop) :
    Draining (system cfg) ok (system cfg).Reachable (effort cfg) where
  keep := fun _ _ _ env _ _ h hchan _ => h.hear env hchan
  drop := fun _ _ _ env _ _ h hchan _ => effort_hear h hchan env

/-- Cascades end: from any reachable state the messages handed over before the next poll
are no more than its effort, and handing them over in any order leads to silence. -/
theorem cascades_end (h : (system cfg).Reachable w) :
    (∀ n w', (system cfg).Drains (fun _ _ _ => True) n w w' →
      n + effort cfg w' ≤ effort cfg w) ∧
    ∃ n w', (system cfg).Drains (fun _ _ _ => True) n w w' ∧ w'.Silent := by
  constructor
  · intro n w' hdrains
    exact ((draining cfg _).bound hdrains h).2
  · refine (draining cfg _).exists_silent ?_ h
    intro v _ hloud
    obtain ⟨src, dst, m, rest, hchan⟩ := World.exists_chan hloud
    exact ⟨src, dst, ⟨0, false⟩, m, rest, hchan, trivial⟩

/-- Two hares have just asked each other. -/
theorem cascades_end_pair : ∃ w, (system (haresOnly 2 2)).Reachable w ∧
    effort (haresOnly 2 2) w = 8 ∧
    (∀ n w', (system (haresOnly 2 2)).Drains (fun _ _ _ => True) n w w' → n ≤ 8) ∧
    ∃ n w', (system (haresOnly 2 2)).Drains (fun _ _ _ => True) n w w' ∧ w'.Silent := by
  obtain ⟨w, hrun, heffort⟩ := Protocol.exists_of_exec (system (haresOnly 2 2))
    (fun _ _ _ => True) [want 0, want 1] (fun w => effort (haresOnly 2 2) w = 8)
    (by decide +kernel)
  obtain ⟨hbound, hsilent⟩ := cascades_end hrun
  refine ⟨w, hrun, heffort, ?_, hsilent⟩
  intro n w' hdrains
  have hle := hbound n w' hdrains
  omega

end Cascade

end HaresBears
