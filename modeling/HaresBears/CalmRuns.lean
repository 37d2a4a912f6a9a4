import HaresBears.Cascades
import HaresBears.EveryOrder
import HaresBears.ClockGrowth
import HaresBears.Continuations
import HaresBears.ReplyConservation
import Mathlib.Data.Finset.Max

/-!
Calm deliveries. While nobody in the line has an older ticket around, handing each process
its oldest message first keeps both orders of starts and requests, and it can go on until
the network is silent.
-/
namespace HaresBears

open FifoNetwork LamportQueueAlgorithm

/-- A ticket on its way, in a request or in a reply, is the pending one of its owner if
its owner is in the line. -/
structure Current (w : World) : Prop where
  asked : ∀ a b, ∀ x ∈ w.chan a b, ∀ t ∈ x.asks, Unserved (algo w a) →
    (algo w a).pendingReqTicket = some t
  answered : ∀ a b, ∀ x ∈ w.chan b a, ∀ t ∈ x.answers, Unserved (algo w a) →
    (algo w a).pendingReqTicket = some t

/-- The steps of a round at the time `now`: both orders are kept, draws are lucky, and
only the processes of `party` are polled. -/
structure Round (cfg : Config) (party : Finset Pid) (now : ℕ) (w : World) (l : Label)
    (w' : World) : Prop where
  orders : InBothOrders cfg w l w'
  env : l.env = ⟨now, true⟩
  poll : ∀ p env, l = .poll p env → p ∈ party

section Calm

variable {cfg : Config} {w w' : World} {r : Runtime} {env : Env} {src dst : Pid} {m : Message}
variable {rest : List Message} {res : Runtime × Sends}

/-- A process that is in the line after a message was in it before, with the same ticket. -/
theorem heard_line (hh : Runtime.Heard r env src m res) (hu : Unserved res.1.algorithm) :
    ¬ m.Names r.algorithm.myPid ∧ Unserved r.algorithm ∧
      res.1.algorithm.pendingReqTicket = r.algorithm.pendingReqTicket := by
  cases hh with
  | stay a l ha _ _ _ =>
    subst ha
    obtain ⟨hn, hbefore⟩ := unserved_absorb.mp hu
    exact ⟨hn, hbefore, by rw [settle_pending, absorb_pending src hn]⟩
  | start a g _ _ _ => simp [Unserved, afterStart] at hu

theorem Current.hear (hs : Sound cfg w) (h : Current w) (hchan : w.chan src dst = m :: rest) :
    Current ((system cfg).hear w src dst env m rest) := by
  have hheard := Runtime.onMsg_heard (w.node dst) env src m (hs.notReady dst)
  have hline : ∀ a, Unserved (algo ((system cfg).hear w src dst env m rest) a) →
      Unserved (algo w a) ∧
        (algo ((system cfg).hear w src dst env m rest) a).pendingReqTicket =
          (algo w a).pendingReqTicket := by
    intro a hu
    by_cases ha : a = dst
    · subst ha
      simp only [algo, Protocol.hear_node_self] at hu ⊢
      exact (heard_line hheard hu).2
    · simp only [algo, Protocol.hear_node_ne ha] at hu ⊢
      exact ⟨hu, trivial⟩
  refine ⟨fun a b x hx t ht hu => ?_, fun a b x hx t ht hu => ?_⟩
  · obtain ⟨hbefore, hsame⟩ := hline a hu
    rw [hsame]
    rcases Protocol.mem_chan_hear hchan hx with hold | ⟨-, hnew⟩
    · exact h.asked a b x hold t ht hbefore
    · have hnone := List.filterMap_eq_nil_iff.mp (asks_heard hheard b) x hnew
      rw [hnone] at ht
      cases ht
  · obtain ⟨hbefore, hsame⟩ := hline a hu
    rw [hsame]
    rcases Protocol.mem_chan_hear hchan hx with hold | ⟨-, hnew⟩
    · exact h.answered a b x hold t ht hbefore
    · have hmem := List.mem_filterMap.mpr ⟨x, hnew, ht⟩
      rw [system_onMsg, answers_heard hheard a] at hmem
      split at hmem
      · rename_i hsrc
        subst hsrc
        exact h.asked src dst m (by simp [hchan]) t (Option.mem_toList.mp hmem) hbefore
      · cases hmem

/-- Some process has an oldest message that can be handed to it. -/
theorem exists_calm (h : (system cfg).Run NoWrap w) (hloud : ¬ w.Silent) :
    ∃ src dst m rest, w.chan src dst = m :: rest ∧ ∀ q, ∀ x ∈ w.chan q dst, m.ts ≤ x.ts := by
  have hs := Sound.of_run h
  obtain ⟨src₀, dst, m₀, rest₀, hchan₀⟩ := World.exists_chan hloud
  have hlive : ∀ q, ∀ x ∈ w.chan q dst, q ∈ (everyone cfg.worldSize).filter
      (fun q => w.chan q dst ≠ []) := by
    intro q x hx
    rw [Finset.mem_filter, mem_everyone]
    exact ⟨(hs.proper q dst x hx).src_live, List.ne_nil_of_mem hx⟩
  have hsome : ((everyone cfg.worldSize).filter (fun q => w.chan q dst ≠ [])).Nonempty :=
    ⟨src₀, hlive src₀ m₀ (by simp [hchan₀])⟩
  obtain ⟨src, hsrc, hleast⟩ := Finset.exists_min_image _
    (fun q => ((w.chan q dst).head?.map stamp).getD 0) hsome
  obtain ⟨m, rest, hchan⟩ := List.exists_cons_of_ne_nil (Finset.mem_filter.mp hsrc).2
  refine ⟨src, dst, m, rest, hchan, ?_⟩
  intro q x hx
  obtain ⟨y, later, hq⟩ := List.exists_cons_of_ne_nil (List.ne_nil_of_mem hx)
  have hle : stamp m ≤ stamp y := by
    simpa [hchan, hq] using hleast q (hlive q x hx)
  have hsorted := chan_sorted h (disciplined_of_run h) q dst
  rw [hq] at hsorted hx
  rw [UInt64.le_iff_toNat_le]
  rcases List.mem_cons.mp hx with rfl | hlater
  · exact hle
  · have hlt : stamp y < stamp x := (List.pairwise_cons.mp hsorted).1 x hlater
    exact Nat.le_of_lt (Nat.lt_of_le_of_lt hle hlt)

/-- Handing over an oldest message keeps both orders. -/
theorem Current.inBothOrders (h : Current w) (hchan : w.chan src dst = m :: rest)
    (holdest : ∀ q, ∀ x ∈ w.chan q dst, m.ts ≤ x.ts)
    (hwrap : NoWrap w (.deliver src dst env) w') :
    InBothOrders cfg w (.deliver src dst env) w' := by
  refine ⟨hwrap, ?_, ?_, ?_⟩
  · intro y hy r _ _ x hx _
    obtain rfl := eq_of_head hchan hy
    exact holdest r x hx
  · intro y hy hw t ht
    obtain rfl := eq_of_head hchan hy
    exact h.answered dst src y (by simp [hchan]) t ht (Or.inl hw)
  · intro y hy _ q _ x hx _
    obtain rfl := eq_of_head hchan hy
    exact holdest q x hx

/-- Calm deliveries lead to silence, and keep both orders all the way. -/
theorem exists_calm_silence (h : (system cfg).Run (InBothOrders cfg) w) (hcur : Current w)
    (hroom : 3 * (w.past.length + effort cfg w) < 2 ^ 64) (party : Finset Pid) (now : ℕ) :
    ∃ n w', (system cfg).Drains (Round cfg party now) n w w' ∧ w'.Silent := by
  have hdraining : Draining (system cfg) (Round cfg party now)
      (fun w => (system cfg).Run (InBothOrders cfg) w ∧ Current w ∧
        3 * (w.past.length + effort cfg w) < 2 ^ 64) (effort cfg) := by
    refine ⟨?_, fun w src dst env m rest hI hchan _ => effort_hear hI.1.reachable hchan env⟩
    intro w src dst env m rest hI hchan hok
    obtain ⟨hrun, hcur, hroom⟩ := hI
    have hdrop := effort_hear hrun.reachable hchan env
    refine ⟨.step (l := .deliver src dst env) hrun (by simp only [Protocol.next, hchan]) hok.orders,
      hcur.hear (Sound.of_run hrun) hchan, ?_⟩
    rw [Protocol.hear_past, List.length_cons]
    omega
  refine hdraining.exists_silent ?_ ⟨h, hcur, hroom⟩
  intro v hI hloud
  obtain ⟨hrun, hcur, hroom⟩ := hI
  have hnowrap := hrun.mono (fun _ _ _ hk => hk.1)
  obtain ⟨src, dst, m, rest, hchan, holdest⟩ := exists_calm hnowrap hloud
  have hdrop := effort_hear hrun.reachable hchan ⟨now, true⟩
  have hbelow := (clocksBelow_of_run hrun (by omega)).2
  have hwrap := (hbelow.hear (Sound.of_run hrun) hchan (by omega) ⟨now, true⟩).1
  refine ⟨src, dst, ⟨now, true⟩, m, rest, hchan, hcur.inBothOrders hchan holdest hwrap, rfl, ?_⟩
  intro p env hl
  cases hl

end Calm

end HaresBears
