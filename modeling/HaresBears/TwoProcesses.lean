import HaresBears.AdmissionPairs
import HaresBears.EveryOrder

/-!
Two processes are always in order. The orders of delivery that safety rests on are kept
by every run of one or two processes in which no clock wraps.
-/
namespace HaresBears

open FifoNetwork

section Pair

variable {cfg : Config} {w : World}

theorem atMostTwo (h : cfg.worldSize ≤ 2) : GroupAdmission.AtMostTwo (live cfg) := by
  intro p q r hp hq hr hqp hrp
  rw [UInt32.le_iff_toNat_le] at h
  unfold live at hp hq hr
  rw [UInt32.lt_iff_toNat_lt] at hp hq hr
  rw [ne_eq, ← UInt32.toNat_inj] at hqp hrp
  rw [← UInt32.toNat_inj]
  change cfg.worldSize.toNat ≤ 2 at h
  omega

/-- Two processes are always in order: a run of at most two processes in which no clock
wraps keeps every order of delivery. -/
theorem two_always_in_order (hcfg : Accepted cfg) (htwo : cfg.worldSize ≤ 2)
    (h : (system cfg).Run NoWrap w) : (system cfg).Run (InEveryOrder cfg) w := by
  refine Protocol.Run.invariant (I := (system cfg).Run (InEveryOrder cfg)) .init ?_ ?_ h
  · intro w src dst env m rest hr ih hchan hk
    have hs := Sound.of_run hr
    have hrun : GroupAdmission.State.Run (live cfg) (fun _ _ => True) (abstraction w) :=
      refines hcfg.exactConfig (fun _ _ _ => trivial) (fun _ _ _ hk => hk)
        (fun _ _ _ _ _ _ _ _ _ _ _ => trivial) hr
    obtain ⟨ho, hpaired⟩ := GroupAdmission.paired_of_run (atMostTwo htwo) hrun
    have hsorted := chan_sorted hr (disciplined_of_run hr) src dst
    have hen : (abstraction w).Enabled (live cfg)
        (hearEvent src dst (max (time (w.node dst)) (stamp m) + 1) m) :=
      enabled_hear hchan hsorted (by omega) (by omega)
    obtain ⟨horder, hfirst, hpending⟩ := hpaired.inEveryOrder (atMostTwo htwo) ho hen
    refine .step (l := .deliver src dst env) ih (by simp only [Protocol.next, hchan]) ?_
    exact ⟨⟨hk, requestsFirst_of_hear hchan horder.requestsFirst,
      ownReplies_of_hear hs hchan horder.ownReplies, keepsNewer_of_hear hchan horder.keepsNewer⟩,
      startsFirst_of_hear hchan hfirst, keepsPending_of_hear hs hchan hpending⟩
  · intro w p env hr ih hp hk
    refine .step (l := .poll p env) ih (if_pos hp) ?_
    exact ⟨⟨hk, trivial, trivial, trivial⟩, trivial, trivial⟩

/-- Two hares form a party. -/
theorem two_always_in_order_pair : ∃ w, (system (haresOnly 2 2)).Run NoWrap w ∧
    .partyStart ⟨⟨0, 5⟩, 5, [0, 1]⟩ ∈ w.chan 0 1 ∧
    (system (haresOnly 2 2)).Run (InEveryOrder (haresOnly 2 2)) w := by
  obtain ⟨w, hrun, hm⟩ := Protocol.exists_of_exec (system (haresOnly 2 2)) NoWrap
    [want 0, want 1, hand 0 1, hand 1 0, hand 1 0]
    (fun w => .partyStart ⟨⟨0, 5⟩, 5, [0, 1]⟩ ∈ w.chan 0 1) (by decide +kernel)
  exact ⟨w, hrun, hm,
    two_always_in_order (haresOnly_accepted (by decide) (by decide)) (by decide) hrun⟩

end Pair

end HaresBears
