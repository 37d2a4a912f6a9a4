import HaresBears.AdmissionBasics

/-!
What a full set of replies tells a process. If every reply that counts answers
the pending ticket, then a queued process knows of every older request that is
not on its way into a party, so parties start in ticket order.
-/
namespace GroupAdmission

open State

variable {ι : Type*} [LinearOrder ι]

def Held (s : State ι) (p r : ι) (t : ℕ) : Prop :=
  s.replica p r = some t ∨ s.flight r p (.request t)

def Claimed (s : State ι) (r : ι) : Prop := ∃ q u g, s.flight q r (.start u g) ∧ r ∈ g

def OwnReplies (s : State ι) : Event ι → Prop
  | .hearReply _ p _ t _ => s.phase p = .waiting → s.ticket p = some t
  | _ => True

def KeepsPending (s : State ι) : Event ι → Prop
  | .hearStart _ p _ g _ => ∀ r ∈ g, r ≠ p → ∀ t, s.replica p r = some t →
      s.ticket r = some t → Claimed s r
  | _ => True

structure Replies (s : State ι) : Prop where
  answering : ∀ p q u t, s.ticket p = some t → s.flight q p (.reply u t) →
    ¬ s.flight p q (.request t)
  answered : ∀ p q t, s.ticket p = some t → s.marked p q → ¬ s.flight p q (.request t)
  informed : ∀ p q t, q ≠ p → s.ticket p = some t → s.marked p q →
    t < s.clock q ∧ ∀ x, s.flight q p x → t < x.ts

/-- Every other process holds the pending ticket of an unclaimed process. -/
def Delivered (live : ι → Prop) (s : State ι) : Prop :=
  ∀ p r t, s.ticket r = some t → ¬ Claimed s r → live p → p ≠ r → Held s p r t

section Steps

variable {live : ι → Prop} {s : State ι} {e : Event ι} {p q r : ι} {t : ℕ} {g : List ι} {c : ℕ}

private theorem answering_next (hb : Basic live s) (h : Replies s) (he : s.Enabled live e) :
    ∀ p q u t, (s.next live e).ticket p = some t → (s.next live e).flight q p (.reply u t) →
      ¬ (s.next live e).flight p q (.request t) := by
  intro p q u t ht hreply hreq
  rcases reply_origin hreply with hold | rfl
  · have hle := (hb.reply_asked q p u t hold).2
    rcases request_origin hreq with hreq' | rfl
    · rcases ticket_origin ht with ht' | rfl
      · exact h.answering p q u t ht' hold hreq'
      · exact absurd he.2.2 (Nat.not_lt.mpr hle)
    · exact absurd he.2.2 (Nat.not_lt.mpr hle)
  · rcases flight_next.mp hreq with ⟨-, hnot⟩ | ⟨-, -, heq⟩
    · exact hnot ⟨rfl, rfl, rfl⟩
    · cases heq

/-- A mark of a pending ticket is its own mark or comes with a reply to it. -/
private theorem mark_origin (hok : OwnReplies s e) (hne : q ≠ p)
    (ht : (s.next live e).ticket p = some t) (hm : (s.next live e).marked p q) :
    s.ticket p = some t ∧ (s.marked p q ∨ ∃ u c, e = .hearReply q p u t c) := by
  rcases ticket_origin ht with hold | rfl
  · refine ⟨hold, ?_⟩
    rcases marked_origin hm with hm' | ⟨hself, -⟩ | ⟨u, t', c, rfl, hw⟩
    · exact Or.inl hm'
    · exact absurd hself hne
    · obtain rfl := Option.some.inj (hold.symm.trans (hok hw))
      exact Or.inr ⟨u, c, rfl⟩
  · simp only [next, if_true] at hm
    exact absurd hm hne

private theorem answered_next (hb : Basic live s) (h : Replies s) (he : s.Enabled live e)
    (hok : OwnReplies s e) :
    ∀ p q t, (s.next live e).ticket p = some t → (s.next live e).marked p q →
      ¬ (s.next live e).flight p q (.request t) := by
  intro p q t ht hm hreq
  have hne : q ≠ p := ((hb.next he).endpoints p q _ hreq).1.symm
  obtain ⟨hold, hm'⟩ := mark_origin hok hne ht hm
  rcases request_origin hreq with hreq' | rfl
  · rcases hm' with hm' | ⟨u, c, rfl⟩
    · exact h.answered p q t hold hm' hreq'
    · exact h.answering p q u t hold he.1.1 hreq'
  · rcases (hb.pending p).mp (by simp [hold]) with hw | hq
    · exact absurd (he.2.1.symm.trans hw) (by decide)
    · exact absurd (he.2.1.symm.trans hq) (by decide)

/-- A reply to the pending ticket is newer than it, and so is all that follows. -/
private theorem informed_next (hb : Basic live s) (h : Replies s) (he : s.Enabled live e)
    (hok : OwnReplies s e) :
    ∀ p q t, q ≠ p → (s.next live e).ticket p = some t → (s.next live e).marked p q →
      t < (s.next live e).clock q ∧ ∀ x, (s.next live e).flight q p x → t < x.ts := by
  intro p q t hne ht hm
  obtain ⟨hold, hm' | ⟨u, c, rfl⟩⟩ := mark_origin hok hne ht hm
  · obtain ⟨hlt, hall⟩ := h.informed p q t hne hold hm'
    refine ⟨hlt.trans_le (clock_mono he q), fun x hx => ?_⟩
    rcases flight_origin hx with hf | hs
    · exact hall x hf
    · exact hlt.trans (sends_fresh he hs).2
  · have hasked := (hb.reply_asked q p u t he.1.1).1
    have hsent := hb.flight_clock q p _ he.1.1
    refine ⟨hasked.trans_le (hsent.trans (clock_mono he q)), fun x hx => ?_⟩
    rcases flight_next.mp hx with ⟨hf, hnot⟩ | hs
    · exact hasked.trans (he.1.2 x hf (fun heq => hnot ⟨rfl, rfl, heq⟩))
    · exact hs.elim

theorem Replies.next (h : Replies s) (hb : Basic live s) (he : s.Enabled live e)
    (hok : OwnReplies s e) : Replies (s.next live e) where
  answering := answering_next hb h he
  answered := answered_next hb h he hok
  informed := informed_next hb h he hok

theorem claimed_keep (live : ι → Prop) (e : Event ι) (h : Claimed s r) :
    Claimed (s.next live e) r ∨ ∃ q u g c, e = .hearStart q r u g c ∧ r ∈ g := by
  obtain ⟨q, u, g, hf, hr⟩ := h
  rcases start_keep live e hf with hn | ⟨c, rfl⟩
  · exact Or.inl ⟨q, u, g, hn, hr⟩
  · exact Or.inr ⟨q, u, g, c, rfl, hr⟩

theorem claimed_origin (h : Claimed (s.next live e) r) :
    Claimed s r ∨ ∃ p g c, e = .form p g c ∧ r ∈ g := by
  obtain ⟨q, u, g, hf, hr⟩ := h
  rcases start_origin hf with hs | rfl
  · exact Or.inl ⟨q, u, g, hs, hr⟩
  · exact Or.inr ⟨q, g, u, rfl, hr⟩

theorem claimed_form (hr : r ∈ g) (hne : r ≠ p) (hl : live r) :
    Claimed (s.next live (.form p g c)) r :=
  ⟨p, c, g, Or.inr ⟨rfl, hne, hl, rfl⟩, hr⟩

/-- A ticket held by a peer was held before, or its owner has just asked. -/
theorem held_origin (he : s.Enabled live e) (hne : p ≠ r) (h : Held (s.next live e) p r t) :
    Held s p r t ∨ e = .want r t := by
  unfold Held at *
  rcases h with h | h
  · rcases replica_origin h with hold | ⟨rfl, -⟩ | ⟨c, rfl⟩
    · exact Or.inl (Or.inl hold)
    · exact absurd rfl hne
    · exact Or.inl (Or.inr he.1.1)
  · rcases request_origin h with h | h
    · exact Or.inl (Or.inr h)
    · exact Or.inr h

/-- A ticket stays held until a start that names its owner is heard or formed. -/
theorem held_keep (hb : Basic live s) (he : s.Enabled live e) (ht : s.ticket r = some t)
    (hne : p ≠ r) (h : Held s p r t) :
    Held (s.next live e) p r t ∨ (∃ q u g c, e = .hearStart q p u g c ∧ r ∈ g) ∨
      ∃ g c, e = .form p g c ∧ r ∈ g := by
  rcases h with hrep | hreq
  · rcases replica_keep live e hne.symm hrep with hn | ⟨t', c, rfl⟩ | hstart | hform
    · exact Or.inl (Or.inl hn)
    · -- a request on its way is newer than the replica but no newer than the ticket
      have hlt := hb.replica_flight p r t _ hne.symm hrep he.1.1
      have hle := hb.request_ticket r p t' t he.1.1 ht
      exact absurd hle (Nat.not_le.mpr hlt)
    · exact Or.inr (Or.inl hstart)
    · exact Or.inr (Or.inr hform)
  · rcases request_keep live e hreq with hn | ⟨c, rfl⟩
    · exact Or.inl (Or.inr hn)
    · left
      left
      simp [State.next]

theorem Delivered.next (h : Delivered live s) (hb : Basic live s) (he : s.Enabled live e)
    (hok : KeepsPending s e) : Delivered live (s.next live e) := by
  intro p r t ht hc hl hne
  by_cases hold : s.ticket r = some t
  · have hcl : ¬ Claimed s r := by
      intro hc'
      rcases claimed_keep live e hc' with hn | ⟨q, u, g, c, rfl, hr⟩
      · exact hc hn
      · simp [State.next, hr] at ht
    have hheld := h p r t hold hcl hl hne
    rcases held_keep hb he hold hne hheld with hn | ⟨q, u, g, c, rfl, hr⟩ | ⟨g, c, rfl, hr⟩
    · exact hn
    · rcases hheld with hrep | hreq
      · exact absurd (hok r hr hne.symm t hrep hold) hcl
      · exact Or.inr ⟨hreq, by simp⟩
    · refine absurd (claimed_form hr hne.symm (hb.active r ?_)) hc
      have := (hb.pending r).mp (by simp [hold])
      rcases this with hp | hp <;> simp [hp]
  · rcases ticket_origin ht with hold' | rfl
    · exact absurd hold' hold
    · exact Or.inr (Or.inr ⟨rfl, hne, hl, rfl⟩)

end Steps

/-- Parties start in ticket order: when a queued process is first in its own
replica, its ticket is earlier than every pending ticket of an unclaimed
process. -/
theorem served_in_order {live : ι → Prop} {s : State ι} (hb : Basic live s) (hr : Replies s)
    (hd : Delivered live s) {p q : ι} {t t' : ℕ} (hp : s.phase p = .queued) (hl : s.Leads p)
    (ht : s.ticket p = some t) (hq : s.ticket q = some t') (hne : q ≠ p) (hc : ¬ Claimed s q) :
    Earlier t p t' q := by
  obtain ⟨t₀, ht₀, hfirst⟩ := hl
  obtain rfl : t₀ = t := by
    rw [(hb.own p t).mp ht] at ht₀
    exact (Option.some.inj ht₀).symm
  have hlive : live q := by
    apply hb.active
    rcases (hb.pending q).mp (by simp [hq]) with h | h <;> simp [h]
  rcases hd p q t' hq hc (hb.active p (by simp [hp])) hne.symm with hrep | hreq
  · have hlate := hfirst q t' hrep
    unfold Earlier at *
    have hlt := lt_or_gt_of_ne hne
    grind
  · have hlt := (hr.informed p q t₀ hne ht (hb.complete p q hp hlive)).2 _ hreq
    exact Or.inl hlt

omit [LinearOrder ι] in
theorem Replies.initial : Replies (State.initial : State ι) := by
  constructor <;> simp [State.initial]

omit [LinearOrder ι] in
theorem Delivered.initial (live : ι → Prop) : Delivered live (State.initial : State ι) := by
  intro p r t ht
  simp [State.initial] at ht

structure InformsLeaders (s : State ι) (e : Event ι) : Prop where
  ownReplies : OwnReplies s e
  keepsPending : KeepsPending s e

theorem informed_of_run {live : ι → Prop} {s : State ι} (h : Run live InformsLeaders s) :
    Basic live s ∧ Replies s ∧ Delivered live s := by
  refine Run.invariant (I := fun s => Basic live s ∧ Replies s ∧ Delivered live s)
    ⟨Basic.initial live, Replies.initial, Delivered.initial live⟩ ?_ h
  intro s e hex he hok
  obtain ⟨hb, hr, hd⟩ := hex
  exact ⟨hb.next he, hr.next hb he hok.ownReplies, hd.next hb he hok.keepsPending⟩

end GroupAdmission
