import HaresBears.Refinement

/-!
Conditions on the order of deliveries, as conditions on the state in which a
message is handed to its receiver. FIFO channels keep the messages of one
sender in order; these conditions speak of messages of different senders, and
of replies to earlier requests.
-/
namespace HaresBears

open FifoNetwork

namespace Message

def isRequest : Message → Bool
  | .request _ => true
  | _ => false

def participants : Message → List Pid
  | .partyStart m => m.participants
  | _ => []

end Message

/-- A party start is handed over only when no older request of another
participant is still on its way to the same process. -/
def RequestsFirst (w : World) : Label → Prop
  | .deliver src dst _ => ∀ m ∈ (w.chan src dst).head?, ∀ r ∈ m.participants, r ≠ dst →
      ∀ x ∈ w.chan r dst, x.isRequest = true → m.ts ≤ x.ts
  | .poll _ _ => True

/-- A waiting process is handed replies to its pending ticket only. -/
def OwnReplies (w : World) : Label → Prop
  | .deliver src dst _ => ∀ m ∈ (w.chan src dst).head?,
      (algo w dst).currentState = .waitingForReplies →
      ∀ t ∈ m.answers, (algo w dst).pendingReqTicket = some t
  | .poll _ _ => True

/-- A party start is handed over only while the replica holds no newer ticket of
another participant. -/
def KeepsNewer (w : World) : Label → Prop
  | .deliver src dst _ => ∀ m ∈ (w.chan src dst).head?, ∀ r ∈ m.participants, r ≠ dst →
      ∀ t ∈ (algo w dst).globalQueue.lookup r, t.ts ≤ m.ts
  | .poll _ _ => True

/-- A request is handed over only when no older party start that names its
sender is still on its way to the same process. -/
def StartsFirst (cfg : Config) (w : World) : Label → Prop
  | .deliver src dst _ => ∀ m ∈ (w.chan src dst).head?, m.isRequest = true →
      ∀ q ∈ processes cfg.worldSize, ∀ x ∈ w.chan q dst, src ∈ x.participants → m.ts ≤ x.ts
  | .poll _ _ => True

/-- A party start that removes the pending ticket of another participant is
handed over only while a party start is still on its way to that participant. -/
def KeepsPending (cfg : Config) (w : World) : Label → Prop
  | .deliver src dst _ => ∀ m ∈ (w.chan src dst).head?, ∀ r ∈ m.participants, r ≠ dst →
      ∀ t ∈ (algo w dst).globalQueue.lookup r, (algo w r).pendingReqTicket = some t →
      ∃ q ∈ processes cfg.worldSize, ∃ x ∈ w.chan q r, r ∈ x.participants
  | .poll _ _ => True

section Decidable

instance : ∀ w l, Decidable (RequestsFirst w l)
  | w, .deliver src dst _ => inferInstanceAs (Decidable (∀ m ∈ (w.chan src dst).head?,
      ∀ r ∈ m.participants, r ≠ dst → ∀ x ∈ w.chan r dst, x.isRequest = true → m.ts ≤ x.ts))
  | _, .poll _ _ => isTrue trivial

instance : ∀ w l, Decidable (OwnReplies w l)
  | w, .deliver src dst _ => inferInstanceAs (Decidable (∀ m ∈ (w.chan src dst).head?,
      (algo w dst).currentState = .waitingForReplies →
      ∀ t ∈ m.answers, (algo w dst).pendingReqTicket = some t))
  | _, .poll _ _ => isTrue trivial

instance : ∀ w l, Decidable (KeepsNewer w l)
  | w, .deliver src dst _ => inferInstanceAs (Decidable (∀ m ∈ (w.chan src dst).head?,
      ∀ r ∈ m.participants, r ≠ dst →
      ∀ t ∈ (algo w dst).globalQueue.lookup r, t.ts ≤ m.ts))
  | _, .poll _ _ => isTrue trivial

instance (cfg : Config) : ∀ w l, Decidable (StartsFirst cfg w l)
  | w, .deliver src dst _ => inferInstanceAs (Decidable (∀ m ∈ (w.chan src dst).head?,
      m.isRequest = true → ∀ q ∈ processes cfg.worldSize, ∀ x ∈ w.chan q dst, src ∈ x.participants →
      m.ts ≤ x.ts))
  | _, .poll _ _ => isTrue trivial

instance (cfg : Config) : ∀ w l, Decidable (KeepsPending cfg w l)
  | w, .deliver src dst _ => inferInstanceAs (Decidable (∀ m ∈ (w.chan src dst).head?,
      ∀ r ∈ m.participants, r ≠ dst →
      ∀ t ∈ (algo w dst).globalQueue.lookup r, (algo w r).pendingReqTicket = some t →
      ∃ q ∈ processes cfg.worldSize, ∃ x ∈ w.chan q r, r ∈ x.participants))
  | _, .poll _ _ => isTrue trivial

end Decidable

section Hearing

variable {cfg : Config} {w : World} {src dst : Pid} {env : Env} {m : Message}
variable {rest : List Message}

theorem request_of_abstract {x : Message} {t : ℕ} (h : abstractMsg x = .request t) :
    x.isRequest = true ∧ stamp x = t := by
  cases x with
  | request y => exact ⟨rfl, GroupAdmission.Msg.request.inj h⟩
  | reply | partyStart => cases h

theorem start_of_abstract {x : Message} {u : ℕ} {g : List Pid} (h : abstractMsg x = .start u g) :
    x.participants = g ∧ stamp x = u := by
  cases x with
  | partyStart y =>
    obtain ⟨hu, hg⟩ := GroupAdmission.Msg.start.inj h
    exact ⟨hg, hu⟩
  | request | reply => cases h

theorem abstract_of_named {x : Message} {r : Pid} (h : r ∈ x.participants) :
    abstractMsg x = .start (stamp x) x.participants := by
  cases x with
  | partyStart y => rfl
  | request | reply => cases h

theorem lookup_of_times {q : RequestQueue} {r : Pid} {t : ℕ} (h : times q r = some t) :
    ∃ k, q.lookup r = some k ∧ k.pid = r ∧ k.ts.toNat = t := by
  obtain ⟨k, hk, ht⟩ := Option.map_eq_some_iff.mp h
  exact ⟨k, hk, RequestQueue.lookup_pid hk, ht⟩

theorem pending_pid (hs : Sound cfg w) {r : Pid} {k : Ticket}
    (h : (algo w r).pendingReqTicket = some k) : k.pid = r := by
  rw [← (hs.coherent r).own] at h
  exact RequestQueue.lookup_pid h

theorem requestsFirst_hear (hchan : w.chan src dst = m :: rest)
    (h : RequestsFirst w (.deliver src dst env)) (c : ℕ) :
    GroupAdmission.RequestsFirst (abstraction w) (hearEvent src dst c m) := by
  cases m with
  | partyStart x =>
    intro r hr hne t hf
    obtain ⟨y, hy, hyt⟩ := hf
    obtain ⟨hreq, hts⟩ := request_of_abstract hyt
    have hle := h (.partyStart x) (by simp [hchan]) r hr hne y hy hreq
    rw [UInt64.le_iff_toNat_le] at hle
    exact hts ▸ hle
  | request | reply => trivial

theorem ownReplies_hear (hchan : w.chan src dst = m :: rest)
    (h : OwnReplies w (.deliver src dst env)) (c : ℕ) :
    GroupAdmission.OwnReplies (abstraction w) (hearEvent src dst c m) := by
  cases m with
  | reply x =>
    intro hw
    have hwait : (algo w dst).currentState = .waitingForReplies := by
      change phaseOf (algo w dst).currentState = _ at hw
      cases hs : (algo w dst).currentState <;> simp_all [phaseOf]
    have hp := h (.reply x) (by simp [hchan]) hwait x.requestTicket rfl
    simp [abstraction, view, hp]
  | request | partyStart => trivial

theorem keepsNewer_hear (hchan : w.chan src dst = m :: rest)
    (h : KeepsNewer w (.deliver src dst env)) (c : ℕ) :
    GroupAdmission.KeepsNewer (abstraction w) (hearEvent src dst c m) := by
  cases m with
  | partyStart x =>
    intro r hr hne t hrep
    obtain ⟨k, hk, -, ht⟩ := lookup_of_times hrep
    have hle := h (.partyStart x) (by simp [hchan]) r hr hne k hk
    rw [UInt64.le_iff_toNat_le] at hle
    exact ht ▸ hle
  | request | reply => trivial

theorem startsFirst_hear (hs : Sound cfg w) (hchan : w.chan src dst = m :: rest)
    (h : StartsFirst cfg w (.deliver src dst env)) (c : ℕ) :
    GroupAdmission.StartsFirst (abstraction w) (hearEvent src dst c m) := by
  cases m with
  | request x =>
    intro q u g hf hg
    obtain ⟨y, hy, hyu⟩ := hf
    obtain ⟨hpart, hts⟩ := start_of_abstract hyu
    have hq := mem_processes.mpr (hs.proper q dst y hy).src_live
    have hle := h (.request x) (by simp [hchan]) rfl q hq y hy (hpart ▸ hg)
    rw [UInt64.le_iff_toNat_le] at hle
    exact hts ▸ hle
  | reply | partyStart => trivial

theorem keepsPending_hear (hs : Sound cfg w) (hchan : w.chan src dst = m :: rest)
    (h : KeepsPending cfg w (.deliver src dst env)) (c : ℕ) :
    GroupAdmission.KeepsPending (abstraction w) (hearEvent src dst c m) := by
  cases m with
  | partyStart x =>
    intro r hr hne t hrep htick
    obtain ⟨k, hk, hkp, hkt⟩ := lookup_of_times hrep
    obtain ⟨k', hk', hkt'⟩ := Option.map_eq_some_iff.mp htick
    obtain rfl : k = k' := Ticket.ext_toNat (hkt.trans hkt'.symm)
      (by rw [hkp, pending_pid hs hk'])
    obtain ⟨q, -, y, hy, hry⟩ := h (.partyStart x) (by simp [hchan]) r hr hne k hk hk'
    exact ⟨q, stamp y, y.participants, ⟨y, hy, abstract_of_named hry⟩, hry⟩
  | request | reply => trivial

end Hearing

def InOrder (w : World) (l : Label) (w' : World) : Prop :=
  NoWrap w l w' ∧ RequestsFirst w l ∧ OwnReplies w l ∧ KeepsNewer w l

def InBothOrders (cfg : Config) (w : World) (l : Label) (w' : World) : Prop :=
  NoWrap w l w' ∧ RequestsFirst w l ∧ OwnReplies w l ∧ StartsFirst cfg w l

def InformsLeaders (cfg : Config) (w : World) (l : Label) (w' : World) : Prop :=
  NoWrap w l w' ∧ OwnReplies w l ∧ KeepsPending cfg w l

instance : ∀ w l w', Decidable (InOrder w l w') := fun w l w' =>
  inferInstanceAs (Decidable (NoWrap w l w' ∧ RequestsFirst w l ∧ OwnReplies w l ∧ KeepsNewer w l))

instance (cfg : Config) : ∀ w l w', Decidable (InBothOrders cfg w l w') := fun w l w' =>
  inferInstanceAs (Decidable (NoWrap w l w' ∧ RequestsFirst w l ∧ OwnReplies w l ∧
    StartsFirst cfg w l))

instance (cfg : Config) : ∀ w l w', Decidable (InformsLeaders cfg w l w') := fun w l w' =>
  inferInstanceAs (Decidable (NoWrap w l w' ∧ OwnReplies w l ∧ KeepsPending cfg w l))

section Refined

variable {cfg : Config} {w : World}

theorem onHearing_of_events {ok : Admission → GroupAdmission.Event Pid → Prop}
    (h : ∀ s p g c, ok s (.want p c) ∧ ok s (.settle p c) ∧ ok s (.form p g c) ∧
      ok s (.release p c)) : OnHearing ok := by
  intro s e he
  cases e with
  | want p c => exact (h s p [] c).1
  | settle p c => exact (h s p [] c).2.1
  | form p g c => exact (h s p g c).2.2.1
  | release p c => exact (h s p [] c).2.2.2
  | hearRequest => exact absurd ⟨rfl, rfl, rfl⟩ (he _ _ _)
  | hearReply => exact absurd ⟨rfl, rfl, rfl⟩ (he _ _ _)
  | hearStart => exact absurd ⟨rfl, rfl, rfl⟩ (he _ _ _)

theorem orderly_of_run (hcfg : ExactConfig cfg) (h : (system cfg).Run InOrder w) :
    GroupAdmission.Orderly (live cfg) (abstraction w) := by
  apply GroupAdmission.Orderly.of_run
  refine refines hcfg (onHearing_of_events ?_) (fun _ _ _ hk => hk.1) ?_ h
  · exact fun _ _ _ _ => ⟨⟨trivial, trivial, trivial⟩, ⟨trivial, trivial, trivial⟩,
      ⟨trivial, trivial, trivial⟩, ⟨trivial, trivial, trivial⟩⟩
  · intro w src dst env m rest w' _ hchan hk c
    exact ⟨requestsFirst_hear hchan hk.2.1 c, ownReplies_hear hchan hk.2.2.1 c,
      keepsNewer_hear hchan hk.2.2.2 c⟩

theorem traced_of_run (hcfg : ExactConfig cfg) (h : (system cfg).Run (InBothOrders cfg) w) :
    GroupAdmission.Orderly (live cfg) (abstraction w) ∧
      GroupAdmission.Settled (abstraction w) ∧
      GroupAdmission.Traced (live cfg) (abstraction w) := by
  apply GroupAdmission.traced_of_run
  refine refines hcfg (onHearing_of_events ?_) (fun _ _ _ hk => hk.1) ?_ h
  · exact fun _ _ _ _ => ⟨⟨trivial, trivial, trivial⟩, ⟨trivial, trivial, trivial⟩,
      ⟨trivial, trivial, trivial⟩, ⟨trivial, trivial, trivial⟩⟩
  · intro w src dst env m rest w' hr hchan hk c
    exact ⟨requestsFirst_hear hchan hk.2.1 c, ownReplies_hear hchan hk.2.2.1 c,
      startsFirst_hear (Sound.of_run hr) hchan hk.2.2.2 c⟩

end Refined

end HaresBears
