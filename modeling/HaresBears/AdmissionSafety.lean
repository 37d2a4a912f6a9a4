import HaresBears.AdmissionOrder

/-!
The safety of group admission in orderly runs. A start finds its members
pending, at most one process leads, replicas agree when nothing is in flight,
and a start removes the very tickets its leader has taken up.
-/
namespace GroupAdmission

open State

variable {ι : Type*} [LinearOrder ι] {live : ι → Prop} {s : State ι} {e : Event ι}

structure InOrder (s : State ι) (e : Event ι) : Prop where
  requestsFirst : RequestsFirst s e
  ownReplies : OwnReplies s e
  keepsNewer : KeepsNewer s e

theorem Orderly.initial (live : ι → Prop) : Orderly live (State.initial : State ι) where
  basic := Basic.initial live
  replies := Replies.initial
  delivered := Delivered.initial live
  announced := fun _ _ _ _ hf => hf.elim
  awaited := fun _ _ _ _ hf => hf.elim
  renewed := fun _ _ _ _ _ _ hf => hf.elim
  accounted := by
    intro p r t _ h
    rcases h with h | h
    · cases h
    · exact h.elim
  between := fun _ _ _ _ _ _ _ hf => hf.elim
  ahead := fun _ _ _ _ _ _ hf => hf.elim

theorem Orderly.of_run (h : Run live InOrder s) : Orderly live s :=
  Run.invariant (Orderly.initial live)
    (fun _ _ hs he hok => hs.next he hok.requestsFirst hok.ownReplies hok.keepsNewer) h

/-- A start on its way to a member finds it pending. -/
theorem Orderly.member_pending (h : Orderly live s) {q r : ι} {u : ℕ} {g : List ι}
    (hf : s.flight q r (.start u g)) (hr : r ∈ g) :
    s.phase r = .waiting ∨ s.phase r = .queued := by
  obtain ⟨⟨t, ht, -⟩, -⟩ := h.awaited q r u g hf hr
  exact (h.basic.pending r).mp (by simp [ht])

/-- At most one queued process is first in its own replica. -/
theorem Orderly.first_unique (h : Orderly live s) {p q : ι} (hp : s.phase p = .queued)
    (hq : s.phase q = .queued) (hlp : s.Leads p) (hlq : s.Leads q) : p = q := by
  by_contra hne
  obtain ⟨t, ht⟩ := Option.ne_none_iff_exists'.mp ((h.basic.pending p).mpr (Or.inr hp))
  obtain ⟨t', ht'⟩ := Option.ne_none_iff_exists'.mp ((h.basic.pending q).mpr (Or.inr hq))
  have hcp : ¬ Claimed s p := fun ⟨q', u, g, hf, _⟩ => h.quiet p q' u g hp hlp hf
  have hcq : ¬ Claimed s q := fun ⟨q', u, g, hf, _⟩ => h.quiet q q' u g hq hlq hf
  have h1 := served_in_order h.basic h.replies h.delivered hp hlp ht ht' (Ne.symm hne) hcq
  have h2 := served_in_order h.basic h.replies h.delivered hq hlq ht' ht hne hcp
  unfold Earlier at h1 h2
  have hasymm := @lt_asymm ι _ p q
  grind

/-- When nothing is in flight, every replica holds exactly the pending tickets. -/
theorem Orderly.replica_iff_ticket (h : Orderly live s) (hnone : ∀ a b x, ¬ s.flight a b x)
    {p r : ι} (hp : live p) (t : ℕ) : s.replica p r = some t ↔ s.ticket r = some t := by
  by_cases hne : p = r
  · subst hne
    exact (h.basic.own p t).symm
  · constructor
    · intro hrep
      rcases h.accounted p r t hne (Or.inl hrep) with hx | ⟨q, u, g, hf, -⟩
      · exact hx.1
      · exact absurd hf (hnone _ _ _)
    · intro ht
      have hc : ¬ Claimed s r := fun ⟨q, u, g, hf, _⟩ => hnone _ _ _ hf
      rcases h.delivered p r t ht hc hp hne with hrep | hreq
      · exact hrep
      · exact absurd hreq (hnone _ _ _)

section Removal

def StartsFirst (s : State ι) : Event ι → Prop
  | .hearRequest r p t _ => ∀ q u g, s.flight q p (.start u g) → r ∈ g → t ≤ u
  | _ => True

structure InBothOrders (s : State ι) (e : Event ι) : Prop where
  requestsFirst : RequestsFirst s e
  ownReplies : OwnReplies s e
  startsFirst : StartsFirst s e

/-- No replica holds a ticket newer than a start that will remove it. -/
def Settled (s : State ι) : Prop :=
  ∀ q p u g r t, s.flight q p (.start u g) → r ∈ g → r ≠ p → s.replica p r = some t → t ≤ u

theorem Settled.keepsNewer (h : Settled s) (he : s.Enabled live e) :
    KeepsNewer s e := by
  cases e with
  | hearStart q p u g c => exact fun r hr hrp t hrep => h q p u g r t he.1.1 hr hrp hrep
  | want | hearRequest | hearReply | settle | form | release => trivial

theorem Settled.next (h : Settled s) (ho : Orderly live s) (he : s.Enabled live e)
    (hD : StartsFirst s e) : Settled (s.next live e) := by
  intro q p u g r t hf hr hrp hrep
  rcases start_origin hf with hs | rfl
  · have hold : s.replica p r = some t ∨ ∃ c, e = .hearRequest r p t c := by
      rcases replica_origin hrep with hold | ⟨hself, -⟩ | hx
      · exact Or.inl hold
      · exact absurd hself hrp
      · exact Or.inr hx
    rcases hold with hold | ⟨c, rfl⟩
    · exact h q p u g r t hs hr hrp hold
    · exact hD q u g hs hr
  · have hold : s.replica p r = some t := by
      rcases replica_origin hrep with hold | ⟨-, hx⟩ | ⟨c, hx⟩
      · exact hold
      · cases hx
      · cases hx
    have hlt := he.2.2.2.2
    by_cases hrq : r = q
    · subst hrq
      have hle := (ho.basic.replica_clock p r t hold).2
      omega
    · obtain ⟨t', ht', -, -, hle⟩ := ho.members he hr hrq
      have hle' := ho.basic.replica_ticket p r t t' hold ht'
      omega

/-- What a formation whose start is still on its way says about the tickets of
its members: none lies between the one taken up and the start, and older ones
are followed by the one taken up. -/
structure Traced (live : ι → Prop) (s : State ι) : Prop where
  clock : ∀ f, s.formed f → f.ts ≤ s.clock f.leader
  taken : ∀ f, s.formed f → ∀ r ∈ f.members, ∃ h, f.replica r = some h ∧ h < f.ts
  own : ∀ f r, s.formed f → s.flight f.leader r (.start f.ts f.members) → r ∈ f.members →
    s.ticket r = f.replica r
  gap : ∀ f p r t h, s.formed f → s.flight f.leader p (.start f.ts f.members) →
    r ∈ f.members → r ≠ p → f.replica r = some h → Held s p r t → t ≤ h ∨ f.ts < t
  follows : ∀ f p r t h, s.formed f → s.flight f.leader p (.start f.ts f.members) →
    r ∈ f.members → r ≠ p → f.replica r = some h → Held s p r t → t < h →
    s.flight r p (.request h)

theorem formed_origin {f : Formation ι} (hf : (s.next live e).formed f) :
    s.formed f ∨ ∃ p g c, e = .form p g c ∧ f = ⟨p, c, g, s.replica p⟩ := by
  cases e with
  | form p g c =>
    rcases hf with h | h
    · exact Or.inl h
    · exact Or.inr ⟨p, g, c, rfl, h⟩
  | want | hearRequest | hearReply | hearStart | settle | release => exact Or.inl hf

/-- A formation and its start belong to the same event. -/
private theorem formed_start (h : Traced live s) (he : s.Enabled live e)
    {f : Formation ι} {p : ι} (hf : (s.next live e).formed f)
    (hs : (s.next live e).flight f.leader p (.start f.ts f.members)) :
    s.formed f ∧ s.flight f.leader p (.start f.ts f.members) ∨
      ∃ c, e = .form f.leader f.members c ∧ f.ts = c ∧ f.replica = s.replica f.leader := by
  rcases formed_origin hf with hold | ⟨q, g, c, rfl, rfl⟩
  · rcases start_origin hs with hs | rfl
    · exact Or.inl ⟨hold, hs⟩
    · have hle := h.clock f hold
      have hlt := he.2.2.2.2
      omega
  · exact Or.inr ⟨c, rfl, rfl, rfl⟩

/-- The leader has the pending ticket of each member. -/
private theorem member_ticket (ho : Orderly live s) {p r : ι} {g : List ι} {c t : ℕ}
    (he : s.Enabled live (.form p g c)) (hr : r ∈ g) (hrep : s.replica p r = some t) :
    s.ticket r = some t ∧ ¬ Claimed s r ∧ t < c := by
  have hlt := he.2.2.2.2
  have hle := (ho.basic.replica_clock p r t hrep).1
  by_cases hrp : r = p
  · subst hrp
    refine ⟨(ho.basic.own r t).mpr hrep, ?_, by omega⟩
    exact fun ⟨q, u, g', hf, _⟩ => ho.quiet r q u g' he.1 he.2.1 hf
  · obtain ⟨t', ht', hrep', hc, -⟩ := ho.members he hr hrp
    obtain rfl := Option.some.inj (hrep.symm.trans hrep')
    exact ⟨ht', hc, by omega⟩

private theorem traced_clock (h : Traced live s) (he : s.Enabled live e) :
    ∀ f, (s.next live e).formed f → f.ts ≤ (s.next live e).clock f.leader := by
  intro f hf
  rcases formed_origin hf with hold | ⟨p, g, c, rfl, rfl⟩
  · exact Nat.le_trans (h.clock f hold) (clock_mono he f.leader)
  · simp [State.next]

private theorem traced_taken (h : Traced live s) (ho : Orderly live s) (he : s.Enabled live e) :
    ∀ f, (s.next live e).formed f → ∀ r ∈ f.members, ∃ t, f.replica r = some t ∧ t < f.ts := by
  intro f hf r hr
  rcases formed_origin hf with hold | ⟨p, g, c, rfl, rfl⟩
  · exact h.taken f hold r hr
  · obtain ⟨t, ht⟩ := Option.isSome_iff_exists.mp (he.2.2.2.1 r hr)
    exact ⟨t, ht, (member_ticket ho he hr ht).2.2⟩

private theorem traced_own (h : Traced live s) (ho : Orderly live s) (he : s.Enabled live e) :
    ∀ f r, (s.next live e).formed f →
      (s.next live e).flight f.leader r (.start f.ts f.members) → r ∈ f.members →
      (s.next live e).ticket r = f.replica r := by
  intro f r hf hs hr
  rcases formed_start h he hf hs with ⟨hold, hso⟩ | ⟨c, rfl, -, hrep⟩
  · obtain ⟨t, ht, -⟩ := h.taken f hold r hr
    have htick := h.own f r hold hso hr
    rw [ht] at htick ⊢
    obtain ⟨-, huniq⟩ := ho.awaited f.leader r f.ts f.members hso hr
    apply ticket_keep ho.basic he htick
    · intro q u g c heq hmem
      subst heq
      obtain ⟨rfl, rfl, rfl⟩ := huniq q u g he.1.1 hmem
      exact hs.2 ⟨rfl, rfl, rfl⟩
    · intro g c heq
      subst heq
      exact ho.quiet r f.leader f.ts f.members he.1 he.2.1 hso
  · have hne : r ≠ f.leader := by
      intro hx
      exact (ho.basic.next he).not_self (hx ▸ hs)
    obtain ⟨t, ht⟩ := Option.isSome_iff_exists.mp (he.2.2.2.1 r hr)
    rw [hrep, ht]
    simpa only [State.next, if_neg hne] using (member_ticket ho he hr ht).1

private theorem traced_gap (h : Traced live s) (ho : Orderly live s) (he : s.Enabled live e) :
    ∀ f p r t t₀, (s.next live e).formed f →
      (s.next live e).flight f.leader p (.start f.ts f.members) → r ∈ f.members → r ≠ p →
      f.replica r = some t₀ → Held (s.next live e) p r t → t ≤ t₀ ∨ f.ts < t := by
  intro f p r t t₀ hf hs hr hrp hrep hheld
  rcases held_origin he hrp.symm hheld with hold | rfl
  · rcases formed_start h he hf hs with ⟨hfo, hso⟩ | ⟨c, rfl, -, hx⟩
    · exact h.gap f p r t t₀ hfo hso hr hrp hrep hold
    · left
      rw [hx] at hrep
      have htick := (member_ticket ho he hr hrep).1
      rcases hold with hold | hold
      · exact ho.basic.replica_ticket p r t t₀ hold htick
      · exact ho.basic.request_ticket r p t t₀ hold htick
  · right
    rcases formed_start h he hf hs with ⟨-, hso⟩ | ⟨c, hx, -⟩
    · exact ho.want_after he hso hr
    · cases hx

private theorem traced_follows (h : Traced live s) (ho : Orderly live s) (he : s.Enabled live e) :
    ∀ f p r t t₀, (s.next live e).formed f →
      (s.next live e).flight f.leader p (.start f.ts f.members) → r ∈ f.members → r ≠ p →
      f.replica r = some t₀ → Held (s.next live e) p r t → t < t₀ →
      (s.next live e).flight r p (.request t₀) := by
  intro f p r t t₀ hf hs hr hrp hrep hheld hlt
  have hnew : (s.next live e).replica p r ≠ some t₀ := by
    intro hx
    rcases hheld with hx' | hx'
    · obtain rfl := Option.some.inj (hx.symm.trans hx')
      omega
    · have hlt' := (ho.basic.next he).replica_flight p r t₀ _ hrp hx hx'
      simp only [Msg.ts] at hlt'
      omega
  have hkeep : s.flight r p (.request t₀) → (s.next live e).flight r p (.request t₀) := by
    intro hreq
    rcases request_keep live e hreq with hn | ⟨c, rfl⟩
    · exact hn
    · exact absurd (by simp [State.next]) hnew
  rcases formed_start h he hf hs with ⟨hfo, hso⟩ | ⟨c, rfl, -, hx⟩
  · rcases held_origin he hrp.symm hheld with hold | rfl
    · exact hkeep (h.follows f p r t t₀ hfo hso hr hrp hrep hold hlt)
    · obtain ⟨t', ht', hlt'⟩ := h.taken f hfo r hr
      obtain rfl := Option.some.inj (hrep.symm.trans ht')
      have hafter := ho.want_after he hso hr
      omega
  · rw [hx] at hrep
    obtain ⟨htick, hc, -⟩ := member_ticket ho he hr hrep
    obtain ⟨hleader, -, hl⟩ := (ho.basic.next he).endpoints _ _ _ hs
    rcases ho.delivered p r t₀ htick hc hl hrp.symm with hx' | hx'
    · refine absurd ?_ hnew
      simpa [State.next, hleader.symm] using hx'
    · exact hkeep hx'

theorem Traced.next (h : Traced live s) (ho : Orderly live s) (he : s.Enabled live e) :
    Traced live (s.next live e) where
  clock := traced_clock h he
  taken := traced_taken h ho he
  own := traced_own h ho he
  gap := traced_gap h ho he
  follows := traced_follows h ho he

omit [LinearOrder ι] in
theorem Traced.initial : Traced live (State.initial : State ι) := by
  constructor <;> simp [State.initial]

/-- The invariant of runs in which starts and requests keep both orders. -/
theorem traced_of_run (h : Run live InBothOrders s) :
    Orderly live s ∧ Settled s ∧ Traced live s := by
  refine Run.invariant (I := fun s => Orderly live s ∧ Settled s ∧ Traced live s) ?_ ?_ h
  · exact ⟨Orderly.initial live, fun _ _ _ _ _ _ hf => hf.elim, Traced.initial⟩
  · intro s e hex he hok
    obtain ⟨ho, hs, ht⟩ := hex
    have hC := hs.keepsNewer he
    exact ⟨ho.next he hok.requestsFirst hok.ownReplies hC, hs.next ho he hok.startsFirst,
      ht.next ho he⟩

/-- What a start removes is what its leader had taken up. -/
theorem removed_ticket (ho : Orderly live s) (hset : Settled s) (htr : Traced live s)
    {q p r : ι} {u c t : ℕ} {g : List ι} (he : s.Enabled live (.hearStart q p u g c))
    (hA : RequestsFirst s (.hearStart q p u g c)) (hr : r ∈ g) (ht : s.replica p r = some t)
    {f : Formation ι} (hf : s.formed f) (hq : f.leader = q) (hu : f.ts = u) (hg : f.members = g) :
    f.replica r = some t := by
  subst hq hu hg
  obtain ⟨h, hrep, hlt⟩ := htr.taken f hf r hr
  have hflight := he.1.1
  by_cases hrp : r = p
  · subst hrp
    have htick := (ho.basic.own r t).mpr ht
    rw [← htr.own f r hf hflight hr, htick]
  · have hle := hset _ p _ _ r t hflight hr hrp ht
    have hgap := htr.gap f p r t h hf hflight hr hrp hrep (Or.inl ht)
    have hnlt : ¬ t < h := by
      intro hth
      have hreq := htr.follows f p r t h hf hflight hr hrp hrep (Or.inl ht) hth
      have hle' := hA r hr hrp h hreq
      omega
    obtain rfl : h = t := by omega
    exact hrep

end Removal

end GroupAdmission
