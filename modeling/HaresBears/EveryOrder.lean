import HaresBears.DeliveryOrder

/-!
All orders of delivery at once. Conditions on the abstract event of a delivery are
conditions on the delivery itself; and if starts and requests keep both their orders, a
start never removes a newer ticket either.
-/
namespace HaresBears

open FifoNetwork

def InEveryOrder (cfg : Config) (w : World) (l : Label) (w' : World) : Prop :=
  InOrder w l w' ∧ StartsFirst cfg w l ∧ KeepsPending cfg w l

instance (cfg : Config) : ∀ w l w', Decidable (InEveryOrder cfg w l w') := fun w l w' =>
  inferInstanceAs (Decidable (InOrder w l w' ∧ StartsFirst cfg w l ∧ KeepsPending cfg w l))

section Hearing

variable {cfg : Config} {w : World} {src dst : Pid} {env : Env} {m : Message}
variable {rest : List Message} {c : ℕ}

theorem eq_of_head (hchan : w.chan src dst = m :: rest) {x : Message}
    (hx : x ∈ (w.chan src dst).head?) : x = m := by
  rw [hchan] at hx
  exact (Option.some.inj hx).symm

theorem requestsFirst_of_hear (hchan : w.chan src dst = m :: rest)
    (h : GroupAdmission.RequestsFirst (abstraction w) (hearEvent src dst c m)) :
    RequestsFirst w (.deliver src dst env) := by
  intro x hx r hr hne y hy hreq
  obtain rfl := eq_of_head hchan hx
  cases x with
  | partyStart x =>
    cases y with
    | request y =>
      have hle := h r hr hne y.requestTicket.ts.toNat ⟨_, hy, rfl⟩
      rwa [UInt64.le_iff_toNat_le]
    | reply | partyStart => cases hreq
  | request | reply => cases hr

theorem ownReplies_of_hear (hs : Sound cfg w) (hchan : w.chan src dst = m :: rest)
    (h : GroupAdmission.OwnReplies (abstraction w) (hearEvent src dst c m)) :
    OwnReplies w (.deliver src dst env) := by
  intro x hx hw t ht
  obtain rfl := eq_of_head hchan hx
  cases x with
  | reply x =>
    obtain rfl := Option.some.inj ht
    have htick := h (by simp [abstraction, view, hw, phaseOf])
    obtain ⟨k, hk, hkt⟩ := Option.map_eq_some_iff.mp htick
    have hpid := ((hs.proper src dst _ (by simp [hchan])).reply x rfl).2
    rw [hk, Ticket.ext_toNat hkt (by rw [pending_pid hs hk, hpid])]
  | request | partyStart => cases ht

theorem keepsNewer_of_hear (hchan : w.chan src dst = m :: rest)
    (h : GroupAdmission.KeepsNewer (abstraction w) (hearEvent src dst c m)) :
    KeepsNewer w (.deliver src dst env) := by
  intro x hx r hr hne t ht
  obtain rfl := eq_of_head hchan hx
  cases x with
  | partyStart x =>
    have hle := h r hr hne t.ts.toNat (by
      simp only [abstraction, view, times, Option.mem_def.mp ht, Option.map_some])
    rwa [UInt64.le_iff_toNat_le]
  | request | reply => cases hr

theorem startsFirst_of_hear (hchan : w.chan src dst = m :: rest)
    (h : GroupAdmission.StartsFirst (abstraction w) (hearEvent src dst c m)) :
    StartsFirst cfg w (.deliver src dst env) := by
  intro x hx hreq q _ y hy hsrc
  obtain rfl := eq_of_head hchan hx
  cases x with
  | request x =>
    have hle := h q (stamp y) y.participants ⟨y, hy, abstract_of_named hsrc⟩ hsrc
    rwa [UInt64.le_iff_toNat_le]
  | reply | partyStart => cases hreq

theorem keepsPending_of_hear (hs : Sound cfg w) (hchan : w.chan src dst = m :: rest)
    (h : GroupAdmission.KeepsPending (abstraction w) (hearEvent src dst c m)) :
    KeepsPending cfg w (.deliver src dst env) := by
  intro x hx r hr hne t ht hpend
  obtain rfl := eq_of_head hchan hx
  cases x with
  | partyStart x =>
    obtain ⟨q, u, g, ⟨y, hy, hyu⟩, hg⟩ := h r hr hne t.ts.toNat
      (by simp only [abstraction, view, times, Option.mem_def.mp ht, Option.map_some])
      (by simp only [abstraction, view, hpend, Option.map_some])
    exact ⟨q, mem_processes.mpr (hs.proper q r y hy).src_live, y, hy,
      (start_of_abstract hyu).1 ▸ hg⟩
  | request | reply => cases hr

end Hearing

section Both

variable {cfg : Config} {w w' : World} {l : Label}

/-- A step that keeps both orders of starts and requests keeps every order. -/
theorem inEveryOrder_of_step (hcfg : ExactConfig cfg) (hr : (system cfg).Run (InBothOrders cfg) w)
    (hnext : (system cfg).next w l = some w') (hk : InBothOrders cfg w l w') :
    InEveryOrder cfg w l w' := by
  obtain ⟨hwrap, hrequests, hreplies, hstarts⟩ := hk
  rcases Protocol.next_cases hnext with ⟨src, dst, env, m, rest, rfl, hchan, rfl⟩ |
    ⟨p, env, rfl, hp, rfl⟩
  · have hs := Sound.of_run hr
    obtain ⟨ho, hset, -⟩ := traced_of_run hcfg hr
    have hsorted := chan_sorted hr (disciplined_of_run (hr.mono (fun _ _ _ hk => hk.1))) src dst
    have hen : (abstraction w).Enabled (live cfg)
        (hearEvent src dst (max (time (w.node dst)) (stamp m) + 1) m) :=
      enabled_hear hchan hsorted (by omega) (by omega)
    have hnewer := hset.keepsNewer hen
    have hpending := GroupAdmission.keepsPending_of_keepsNewer ho hen hnewer
    exact ⟨⟨hwrap, hrequests, hreplies, keepsNewer_of_hear hchan hnewer⟩, hstarts,
      keepsPending_of_hear hs hchan hpending⟩
  · exact ⟨⟨hwrap, trivial, trivial, trivial⟩, trivial, trivial⟩

/-- A run in which starts and requests keep both their orders keeps every order. -/
theorem inEveryOrder_of_both (hcfg : ExactConfig cfg) (h : (system cfg).Run (InBothOrders cfg) w) :
    (system cfg).Run (InEveryOrder cfg) w := by
  induction h with
  | init => exact .init
  | step hr hnext hk ih => exact .step ih hnext (inEveryOrder_of_step hcfg hr hnext hk)

end Both

end HaresBears
