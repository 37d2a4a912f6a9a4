import HaresBears.AdmissionReplies

/-!
The order in which requests and starts reach a process. If a start is heard only
after the older requests of its members, and never after a newer one, then a
queued process that is first in its replica has no start on its way to it. From
this follows all that a leader relies on: its members are pending, nobody else
has claimed them, and no other process leads.
-/
namespace GroupAdmission

open State

variable {ι : Type*} [LinearOrder ι]

/-- A start on its way to `p` will remove the ticket `t` of `r`. -/
def Doomed (s : State ι) (p r : ι) (t : ℕ) : Prop :=
  ∃ q u g, s.flight q p (.start u g) ∧ r ∈ g ∧ t < u

def RequestsFirst (s : State ι) : Event ι → Prop
  | .hearStart _ p u g _ => ∀ r ∈ g, r ≠ p → ∀ t, s.flight r p (.request t) → u ≤ t
  | _ => True

def KeepsNewer (s : State ι) : Event ι → Prop
  | .hearStart _ p u g _ => ∀ r ∈ g, r ≠ p → ∀ t, s.replica p r = some t → t ≤ u
  | _ => True

/-- Whoever has not yet heard a start in flight has it before it, and whoever
has heard it has a clock past it. -/
def Announced (live : ι → Prop) (s : State ι) : Prop :=
  ∀ q p u g, s.flight q p (.start u g) → ∀ x, live x →
    x = q ∨ s.flight q x (.start u g) ∨ u ≤ s.clock x

/-- A start on its way to a member finds the member pending, and is the only one
on its way to it that names it. -/
def Awaited (s : State ι) : Prop :=
  ∀ q r u g, s.flight q r (.start u g) → r ∈ g →
    (∃ t, s.ticket r = some t ∧ t < u) ∧
    ∀ q' u' g', s.flight q' r (.start u' g') → r ∈ g' → q' = q ∧ u' = u ∧ g' = g

/-- Once a member has heard a start, its pending ticket is newer than the start. -/
def Renewed (s : State ι) : Prop :=
  ∀ q p u g r t, s.flight q p (.start u g) → r ∈ g → r ≠ p → ¬ s.flight q r (.start u g) →
    s.ticket r = some t → u < t

/-- A peer holds the pending ticket of an unclaimed process or a doomed ticket. -/
def Accounted (s : State ι) : Prop :=
  ∀ p r t, p ≠ r → Held s p r t → (s.ticket r = some t ∧ ¬ Claimed s r) ∨ Doomed s p r t

/-- A later start that names the leader of an earlier one took up a newer
request of it. -/
def Between (s : State ι) : Prop :=
  ∀ q p q' u g u' g', s.flight q p (.start u g) → s.flight q' p (.start u' g') → q' ≠ q →
    q ∈ g' → u ≤ u' → ∃ t, s.flight q p (.request t) ∧ u < t ∧ t < u'

/-- `t` is the ticket that made `q` the leader of a start with time `u` on its
way to `p`, as `p` can still see it. -/
structure LeaderTicket (s : State ι) (q p : ι) (u t : ℕ) : Prop where
  held : Held s p q t
  older : t < u
  latest : ∀ t', s.flight q p (.request t') → t' < u → t' ≤ t
  renewed : ∀ q' u' g', s.flight q' p (.start u' g') → q ∈ g' → u' < u → u' < t

/-- A process sees the leader of a start ahead of itself if the leader knew its
ticket and no earlier start names it. -/
def Ahead (s : State ι) : Prop :=
  ∀ p q t u g, s.ticket p = some t → s.flight q p (.start u g) →
    (s.marked p q ∨ ∃ v, s.flight q p (.reply v t) ∧ v < u) →
    (∀ q' u' g', s.flight q' p (.start u' g') → p ∈ g' → u ≤ u') →
    ∃ t', LeaderTicket s q p u t' ∧ Earlier t' q t p

def Quiet (s : State ι) : Prop :=
  ∀ p q u g, s.phase p = .queued → s.Leads p → ¬ s.flight q p (.start u g)

structure Orderly (live : ι → Prop) (s : State ι) : Prop where
  basic : Basic live s
  replies : Replies s
  delivered : Delivered live s
  announced : Announced live s
  awaited : Awaited s
  renewed : Renewed s
  accounted : Accounted s
  between : Between s
  ahead : Ahead s

section Leader

variable {live : ι → Prop} {s : State ι} {p q r : ι} {t u c : ℕ} {g : List ι}

/-- The earliest start on its way to a queued first process would be led by a
process ahead of it, whose ticket is in the replica or older than the reply. -/
theorem Orderly.quiet (h : Orderly live s) : Quiet s := by
  intro p q u g hp hl
  induction u using Nat.strongRecOn generalizing q g with
  | ind u ih =>
    intro hf
    obtain ⟨t, ht, hfirst⟩ := hl
    have htick := (h.basic.own p t).mpr ht
    obtain ⟨hne, hq, -⟩ := h.basic.endpoints q p _ hf
    have hmark := h.basic.complete p q hp hq
    obtain ⟨t', hlead, hearlier⟩ := h.ahead p q t u g htick hf (Or.inl hmark) (by
      intro q' u' g' hf' _
      by_contra hlt
      exact ih u' (by omega) q' g' hf')
    rcases hlead.held with hrep | hreq
    · exact hfirst q t' hrep hearlier
    · have hlt := (h.replies.informed p q t hne htick hmark).2 _ hreq
      unfold Earlier at hearlier
      simp only [Msg.ts] at hlt
      omega

/-- The members of a party about to be formed are pending and unclaimed. -/
theorem Orderly.members (h : Orderly live s) (he : s.Enabled live (.form p g c)) (hr : r ∈ g)
    (hne : r ≠ p) :
    ∃ t, s.ticket r = some t ∧ s.replica p r = some t ∧ ¬ Claimed s r ∧ t ≤ s.clock p := by
  obtain ⟨hp, hl, -, hg, -⟩ := he
  obtain ⟨t, ht⟩ := Option.isSome_iff_exists.mp (hg r hr)
  rcases h.accounted p r t hne.symm (Or.inl ht) with ⟨hrt, hc⟩ | ⟨q, u, g', hf, -⟩
  · exact ⟨t, hrt, ht, hc, (h.basic.replica_clock p r t ht).1⟩
  · exact absurd hf (h.quiet p q u g' hp hl)

/-- A leader about to form a party has a clock past every start in flight. -/
theorem Orderly.start_le_clock (h : Orderly live s) (he : s.Enabled live (.form p g c))
    {q x : ι} {g' : List ι} (hf : s.flight q x (.start u g')) : u ≤ s.clock p := by
  have hlive := h.basic.active p (by simp [he.1])
  rcases h.announced q x u g' hf p hlive with rfl | hs | hc
  · exact h.basic.flight_clock _ _ _ hf
  · exact absurd hs (h.quiet p q u g' he.1 he.2.1)
  · exact hc

/-- A new ticket of a member is newer than every start in flight that names it. -/
theorem Orderly.want_after (h : Orderly live s) (he : s.Enabled live (.want r t))
    (hf : s.flight q p (.start u g)) (hr : r ∈ g) : u < t := by
  have hlt := he.2.2
  rcases h.announced q p u g hf r he.1 with rfl | hs | hc
  · have hle := h.basic.flight_clock _ _ _ hf
    simp only [Msg.ts] at hle
    omega
  · obtain ⟨⟨t', ht', -⟩, -⟩ := h.awaited q r u g hs hr
    have hpend := (h.basic.pending r).mp (by simp [ht'])
    simp [he.2.1] at hpend
  · omega

end Leader

section Steps

variable {live : ι → Prop} {s : State ι} {e : Event ι} {p q r : ι} {t u c : ℕ} {g : List ι}

theorem doomed_keep (live : ι → Prop) (e : Event ι) (h : Doomed s p r t) :
    Doomed (s.next live e) p r t ∨ ∃ q u g c, e = .hearStart q p u g c ∧ r ∈ g ∧ t < u := by
  obtain ⟨q, u, g, hf, hr, hu⟩ := h
  rcases start_keep live e hf with hn | ⟨c, rfl⟩
  · exact Or.inl ⟨q, u, g, hn, hr, hu⟩
  · exact Or.inr ⟨q, u, g, c, rfl, hr, hu⟩

theorem doomed_form (hr : r ∈ g) (hne : q ≠ p) (hl : live q) (hc : t < c) :
    Doomed (s.next live (.form p g c)) q r t :=
  ⟨p, c, g, Or.inr ⟨rfl, hne, hl, rfl⟩, hr, hc⟩

theorem Announced.next (h : Announced live s) (he : s.Enabled live e) :
    Announced live (s.next live e) := by
  intro q p u g hf x hx
  have hmono := clock_mono he x
  rcases start_origin hf with hs | rfl
  · rcases h q p u g hs x hx with hq | hs' | hc
    · exact Or.inl hq
    · rcases start_keep live e hs' with hn | ⟨c, rfl⟩
      · exact Or.inr (Or.inl hn)
      · right
        right
        have hlt := he.2.2
        simp only [State.next, if_pos]
        omega
    · exact Or.inr (Or.inr (Nat.le_trans hc hmono))
  · by_cases hxq : x = q
    · exact Or.inl hxq
    · exact Or.inr (Or.inl (Or.inr ⟨rfl, hxq, hx, rfl⟩))

/-- A pending ticket that is unclaimed stays pending, unless its owner forms. -/
theorem ticket_keep (hb : Basic live s) (he : s.Enabled live e) (ht : s.ticket r = some t)
    (hc : ∀ q u g c, e = .hearStart q r u g c → r ∉ g) (hform : ∀ g c, e ≠ .form r g c) :
    (s.next live e).ticket r = some t := by
  have hpend := (hb.pending r).mp (by simp [ht])
  cases e with
  | want p c =>
    have hp : r ≠ p := by
      intro hrp
      simp [hrp, he.2.1] at hpend
    simp only [State.next, if_neg hp, ht]
  | release p c =>
    have hp : r ≠ p := by
      intro hrp
      simp [hrp, he.1] at hpend
    simp only [State.next, if_neg hp, ht]
  | hearStart q p u g c =>
    have hx : ¬ (r = p ∧ p ∈ g) := by
      intro hx
      obtain ⟨rfl, hr⟩ := hx
      exact hc q u g c rfl hr
    simp only [State.next, if_neg hx, ht]
  | form p g c =>
    have hp : r ≠ p := by
      intro hrp
      subst hrp
      exact hform g c rfl
    simp only [State.next, if_neg hp, ht]
  | hearRequest | hearReply | settle => exact ht

theorem Awaited.next (h : Orderly live s) (he : s.Enabled live e) :
    Awaited (s.next live e) := by
  intro q r u g hf hr
  by_cases hform : ∃ p g' c, e = .form p g' c ∧ r ∈ g'
  · obtain ⟨p, g', c, rfl, hr'⟩ := hform
    have hc := he.2.2.2.2
    have hnew : ∀ q' u' g₁, (s.next live (.form p g' c)).flight q' r (.start u' g₁) → r ∈ g₁ →
        q' = p ∧ u' = c ∧ g₁ = g' := by
      intro q' u' g₁ hf' hr₁
      rcases start_origin hf' with hs | heq
      · by_cases hrp : r = p
        · subst hrp
          exact absurd hs (h.quiet r q' u' g₁ he.1 he.2.1)
        · obtain ⟨t, -, -, hcl, -⟩ := h.members he hr' hrp
          exact absurd ⟨q', u', g₁, hs, hr₁⟩ hcl
      · obtain ⟨rfl, rfl, rfl⟩ := Event.form.inj heq
        exact ⟨rfl, rfl, rfl⟩
    obtain ⟨rfl, rfl, rfl⟩ := hnew q u g hf hr
    refine ⟨?_, hnew⟩
    have hrp : r ≠ q := by
      intro hrp
      subst hrp
      exact (h.basic.next he).not_self hf
    obtain ⟨t, ht, -, -, hle⟩ := h.members he hr hrp
    exact ⟨t, by simpa only [State.next, if_neg hrp] using ht, by omega⟩
  · have hold : ∀ q' u' g', (s.next live e).flight q' r (.start u' g') → r ∈ g' →
        s.flight q' r (.start u' g') := by
      intro q' u' g' hf' hr'
      rcases start_origin hf' with hs | rfl
      · exact hs
      · exact absurd ⟨q', g', u', rfl, hr'⟩ hform
    have hs := hold q u g hf hr
    obtain ⟨⟨t, ht, hlt⟩, huniq⟩ := h.awaited q r u g hs hr
    refine ⟨⟨t, ticket_keep h.basic he ht ?_ ?_, hlt⟩, ?_⟩
    · intro q' u' g' c heq hr'
      subst heq
      obtain ⟨rfl, rfl, rfl⟩ := huniq q' u' g' he.1.1 hr'
      exact hf.2 ⟨rfl, rfl, rfl⟩
    · intro g' c heq
      subst heq
      exact hform ⟨r, g', c, rfl, he.2.2.1⟩
    · intro q' u' g' hf' hr'
      exact huniq q' u' g' (hold q' u' g' hf' hr') hr'

theorem Renewed.next (h : Orderly live s) (he : s.Enabled live e) :
    Renewed (s.next live e) := by
  intro q p u g r t hf hr hrp hnot ht
  rcases start_origin hf with hs | rfl
  · by_cases hs' : s.flight q r (.start u g)
    · rcases start_keep live e hs' with hn | ⟨c, rfl⟩
      · exact absurd hn hnot
      · simp [State.next, hr] at ht
    · rcases ticket_origin ht with hold | rfl
      · exact h.renewed q p u g r t hs hr hrp hs' hold
      · exact h.want_after he hs hr
  · by_cases hrq : r = q
    · subst hrq
      simp [State.next] at ht
    · have hlive : live r := by
        have ht' : s.ticket r = some t := by simpa only [State.next, if_neg hrq] using ht
        exact h.basic.live_of_ticket ht'
      exact absurd (Or.inr ⟨rfl, hrq, hlive, rfl⟩) hnot

theorem Accounted.next (h : Orderly live s) (he : s.Enabled live e) (hok : RequestsFirst s e) :
    Accounted (s.next live e) := by
  intro p r t hne hheld
  rcases held_origin he hne hheld with hold | rfl
  · have hl : live p := by
      rcases hold with hrep | hreq
      · exact h.basic.replica_live p r t hrep
      · exact (h.basic.endpoints r p _ hreq).2.2
    rcases h.accounted p r t hne hold with ⟨ht, hc⟩ | hd
    · by_cases hform : ∃ L g c, e = .form L g c ∧ r ∈ g
      · obtain ⟨L, g, c, rfl, hr⟩ := hform
        have hclock : t < c := by
          have hlt := he.2.2.2.2
          by_cases hrL : r = L
          · subst hrL
            have hle := (h.basic.replica_clock r r t ((h.basic.own r t).mp ht)).1
            omega
          · obtain ⟨t', ht', -, -, hle⟩ := h.members he hr hrL
            obtain rfl := Option.some.inj (ht.symm.trans ht')
            omega
        by_cases hpL : p = L
        · subst hpL
          obtain ⟨t', ht', hrep, -, -⟩ := h.members he hr hne.symm
          obtain rfl := Option.some.inj (ht.symm.trans ht')
          rcases hheld with hrep' | hreq'
          · simp [State.next, hr] at hrep'
          · have hreq : s.flight r p (.request t) := by simpa [State.next] using hreq'
            have hlt := h.basic.replica_flight p r t _ hne.symm hrep hreq
            simp only [Msg.ts] at hlt
            omega
        · exact Or.inr (doomed_form hr hpL hl hclock)
      · left
        refine ⟨ticket_keep h.basic he ht ?_ ?_, ?_⟩
        · intro q u g c heq hr
          subst heq
          exact hc ⟨q, u, g, he.1.1, hr⟩
        · intro g c heq
          subst heq
          exact hform ⟨r, g, c, rfl, he.2.2.1⟩
        · intro hc'
          rcases claimed_origin hc' with hs | hx
          · exact hc hs
          · exact hform hx
    · rcases doomed_keep live e hd with hn | ⟨q, u, g, c, rfl, hr, hu⟩
      · exact Or.inr hn
      · exfalso
        rcases hheld with hrep | hreq
        · simp [State.next, hr] at hrep
        · have hle := hok r hr hne.symm t hreq.1
          omega
  · left
    refine ⟨by simp [State.next], ?_⟩
    intro hc
    rcases claimed_origin hc with ⟨q, u, g, hf, hr⟩ | ⟨p', g, c, hx, -⟩
    · obtain ⟨⟨t', ht', -⟩, -⟩ := h.awaited q r u g hf hr
      have hpend := (h.basic.pending r).mp (by simp [ht'])
      simp [he.2.1] at hpend
    · cases hx

/-- With a start of `q` still on its way to `p`, no request behind it is heard. -/
private theorem request_behind (he : s.Enabled live e)
    (hs : s.flight q p (.start u g)) (hreq : s.flight q p (.request t)) (hlt : u < t) :
    (s.next live e).flight q p (.request t) := by
  rcases request_keep live e hreq with hn | ⟨c, rfl⟩
  · exact hn
  · have hfirst := he.1.2 _ hs (by simp)
    simp only [Msg.ts] at hfirst
    omega

theorem Between.next (h : Orderly live s) (he : s.Enabled live e) :
    Between (s.next live e) := by
  intro q p q' u g u' g' hf hf' hne hmem hle
  rcases start_origin hf with hs | rfl
  · rcases start_origin hf' with hs' | rfl
    · obtain ⟨t, ht, hut, htu⟩ := h.between q p q' u g u' g' hs hs' hne hmem hle
      exact ⟨t, request_behind he hs ht hut, hut, htu⟩
    · obtain ⟨t, ht, -, hcl, htc⟩ := h.members he hmem hne.symm
      obtain ⟨hqp, -, hp⟩ := h.basic.endpoints q p _ hs
      have hut := h.renewed q p u g q t hs (h.basic.start_leader q p u g hs) hqp
        h.basic.not_self ht
      have hlt := he.2.2.2.2
      rcases h.delivered p q t ht hcl hp hqp.symm with hrep | hreq
      · have hlt' := h.basic.replica_flight p q t _ hqp hrep hs
        simp only [Msg.ts] at hlt'
        omega
      · exact ⟨t, Or.inl hreq, hut, by omega⟩
  · have hs' : s.flight q' p (.start u' g') := by
      rcases start_origin hf' with hs' | heq
      · exact hs'
      · exact absurd (Event.form.inj heq).1.symm hne
    have hle' := h.start_le_clock he hs'
    have hlt := he.2.2.2.2
    omega

/-- The ticket of the leader of a start just formed. -/
private theorem leaderTicket_form (h : Orderly live s) (he : s.Enabled live (.form q g c))
    (hp : live p) (hne : p ≠ q) {t : ℕ} (ht : s.ticket q = some t) :
    LeaderTicket (s.next live (.form q g c)) q p c t := by
  have hcl : ¬ Claimed s q := fun ⟨q', u, g', hf, _⟩ => h.quiet q q' u g' he.1 he.2.1 hf
  have hle := (h.basic.replica_clock q q t ((h.basic.own q t).mp ht)).1
  have hlt := he.2.2.2.2
  refine ⟨?_, by omega, ?_, ?_⟩
  · rcases h.delivered p q t ht hcl hp hne with hrep | hreq
    · exact Or.inl (by simpa [State.next, hne] using hrep)
    · exact Or.inr (Or.inl hreq)
  · intro t' hreq _
    rcases request_origin hreq with hs | hx
    · exact h.basic.request_ticket q p t' t hs ht
    · cases hx
  · intro q' u' g' hf' hmem hu'
    rcases start_origin hf' with hs | heq
    · exact h.renewed q' p u' g' q t hs hmem hne.symm (h.quiet q q' u' g' he.1 he.2.1) ht
    · obtain ⟨-, -, rfl⟩ := Event.form.inj heq
      omega

/-- A leader that knew the ticket of `p`, and that no start for `p` has reached,
is ahead of it. -/
private theorem earlier_form (h : Orderly live s) (he : s.Enabled live (.form q g c))
    (hne : p ≠ q) {t t' : ℕ} (htp : s.ticket p = some t) (htq : s.ticket q = some t')
    (hknown : s.marked p q ∨ ∃ v, s.flight q p (.reply v t))
    (hfirst : ∀ q' u' g', s.flight q' p (.start u' g') → p ∈ g' → c ≤ u') :
    Earlier t' q t p := by
  have hcl : ¬ Claimed s p := by
    intro hex
    obtain ⟨q', u', g', hf, hr⟩ := hex
    have hle := h.start_le_clock he hf
    have hlt := he.2.2.2.2
    have hc := hfirst q' u' g' hf hr
    omega
  have hnot : ¬ s.flight p q (.request t) := by
    rcases hknown with hm | ⟨v, hv⟩
    · exact h.replies.answered p q t htp hm
    · exact h.replies.answering p q v t htp hv
  have hrep : s.replica q p = some t := by
    rcases h.delivered q p t htp hcl (h.basic.live_of_ticket htq) hne.symm with hrep | hreq
    · exact hrep
    · exact absurd hreq hnot
  obtain ⟨t₀, ht₀, hlead⟩ := he.2.1
  obtain rfl := Option.some.inj (ht₀.symm.trans ((h.basic.own q t').mp htq))
  have hlate := hlead p t hrep
  have hlt := lt_or_gt_of_ne hne
  unfold Earlier at *
  grind

/-- Hearing another start does not remove the ticket with which a leader on its way
has started. -/
private theorem leader_spared {q' : ι} {u' : ℕ} {g' : List ι} (h : Orderly live s)
    (he : s.Enabled live (.hearStart q' p u' g' c)) (hA : RequestsFirst s (.hearStart q' p u' g' c))
    (hC : KeepsNewer s (.hearStart q' p u' g' c)) (hqp : q ≠ p)
    (hs : s.flight q p (.start u g)) (hne : q = q' → Msg.start u g ≠ .start u' g')
    (hl : LeaderTicket s q p u t) (hrep : s.replica p q = some t) : q ∉ g' := by
  intro hmem
  have hle := hC q hmem hqp t hrep
  by_cases hqq : q' = q
  · subst hqq
    have hlt := h.basic.replica_flight p q' t _ hqp hrep he.1.1
    have hu : u' < u := he.1.2 _ hs (hne rfl)
    have hren := hl.renewed q' u' g' he.1.1 hmem hu
    omega
  · by_cases hu : u' < u
    · have hren := hl.renewed q' u' g' he.1.1 hmem hu
      omega
    · obtain ⟨t', hreq, hut, htu⟩ := h.between q p q' u g u' g' hs he.1.1 hqq hmem (by omega)
      have hle' := hA q hmem hqp t' hreq
      omega

/-- Hearing a start or a request leaves the leader of a later start its ticket. -/
private theorem leaderTicket_keep (h : Orderly live s) (he : s.Enabled live e)
    (hA : RequestsFirst s e) (hC : KeepsNewer s e)
    (hs : s.flight q p (.start u g)) (hf : (s.next live e).flight q p (.start u g))
    (hpe : ∀ g c, e ≠ .form p g c) (hl : LeaderTicket s q p u t) :
    LeaderTicket (s.next live e) q p u t := by
  obtain ⟨hqp, -, hp⟩ := h.basic.endpoints q p _ hs
  refine ⟨?_, hl.older, ?_, ?_⟩
  · rcases hl.held with hrep | hreq
    · rcases replica_keep live e hqp hrep with hn | ⟨t', c, rfl⟩ | ⟨q', u', g', c, rfl, hr⟩ |
        ⟨g', c, rfl, -⟩
      · exact Or.inl hn
      · have hlt := h.basic.replica_flight p q t _ hqp hrep he.1.1
        have hfirst := he.1.2 _ hs (by simp)
        have hle := hl.latest t' he.1.1 hfirst
        simp only [Msg.ts] at hlt
        omega
      · exact absurd hr (leader_spared h he hA hC hqp hs (fun hq hx => hf.2 ⟨hq, rfl, hx⟩) hl hrep)
      · exact absurd rfl (hpe g' c)
    · rcases request_keep live e hreq with hn | ⟨c, rfl⟩
      · exact Or.inr hn
      · exact Or.inl (by simp [State.next])
  · intro t' hreq hlt
    rcases request_origin hreq with hs' | rfl
    · exact hl.latest t' hs' hlt
    · have hle := h.basic.flight_clock _ _ _ hs
      have hc := he.2.2
      simp only [Msg.ts] at hle
      omega
  · intro q' u' g' hf' hmem hlt
    rcases start_origin hf' with hs' | rfl
    · exact hl.renewed q' u' g' hs' hmem hlt
    · have hle := h.start_le_clock he hs
      have hc := he.2.2.2.2
      omega

theorem Ahead.next (h : Orderly live s) (he : s.Enabled live e) (hA : RequestsFirst s e)
    (hB : OwnReplies s e) (hC : KeepsNewer s e) : Ahead (s.next live e) := by
  intro p q t u g ht hf hknown hfirst
  obtain ⟨hqp, -, hp⟩ := (h.basic.next he).endpoints q p _ hf
  rcases start_origin hf with hs | rfl
  · have hold : s.ticket p = some t := by
      rcases ticket_origin ht with hold | rfl
      · exact hold
      · exfalso
        have hc := he.2.2
        rcases hknown with hm | ⟨v, hv, -⟩
        · simp only [State.next, if_pos] at hm
          exact hqp hm
        · rcases reply_origin hv with hx | hx
          · have hle := (h.basic.reply_asked q p v t hx).2
            omega
          · cases hx
    have hpe : ∀ g c, e ≠ .form p g c := by
      intro g' c heq
      subst heq
      simp [State.next] at ht
    have hknown' : s.marked p q ∨ ∃ v, s.flight q p (.reply v t) ∧ v < u := by
      rcases hknown with hm | ⟨v, hv, hlt⟩
      · rcases marked_origin hm with hm' | ⟨hself, -⟩ | ⟨v, t', c, rfl, hw⟩
        · exact Or.inl hm'
        · exact absurd hself hqp
        · obtain rfl := Option.some.inj (hold.symm.trans (hB hw))
          exact Or.inr ⟨v, he.1.1, he.1.2 _ hs (by simp)⟩
      · rcases reply_origin hv with hv' | rfl
        · exact Or.inr ⟨v, hv', hlt⟩
        · have hle : u ≤ s.clock q := h.basic.flight_clock q p _ hs
          have hnew := he.2.1
          omega
    obtain ⟨t', hl, hearlier⟩ := h.ahead p q t u g hold hs hknown' (by
      intro q' u' g' hf' hr
      rcases start_keep live e hf' with hn | ⟨c, rfl⟩
      · exact hfirst q' u' g' hn hr
      · simp [State.next, hr] at ht)
    exact ⟨t', leaderTicket_keep h he hA hC hs hf hpe hl, hearlier⟩
  · have htp : s.ticket p = some t := by
      simpa only [State.next, if_neg hqp.symm] using ht
    obtain ⟨t', ht'⟩ := Option.ne_none_iff_exists'.mp ((h.basic.pending q).mpr (Or.inr he.1))
    refine ⟨t', leaderTicket_form h he hp hqp.symm ht', ?_⟩
    apply earlier_form h he hqp.symm htp ht'
    · rcases hknown with hm | ⟨v, hv, -⟩
      · exact Or.inl hm.1
      · rcases reply_origin hv with hv' | hx
        · exact Or.inr ⟨v, hv'⟩
        · cases hx
    · intro q' u' g' hf' hr
      rcases start_keep live (.form q g u) hf' with hn | ⟨c, hx⟩
      · exact hfirst q' u' g' hn hr
      · cases hx

/-- A start that is not older than the ticket it removes is still on its way to
the owner, unless that ticket is no longer pending. -/
theorem keepsPending_of_keepsNewer (h : Orderly live s) (he : s.Enabled live e)
    (hC : KeepsNewer s e) : KeepsPending s e := by
  cases e with
  | hearStart q p u g c =>
    intro r hr hrp t hrep ht
    by_contra hcl
    have hle := hC r hr hrp t hrep
    have hnot : ¬ s.flight q r (.start u g) := fun hf => hcl ⟨q, u, g, hf, hr⟩
    have hlt := h.renewed q p u g r t he.1.1 hr hrp hnot ht
    omega
  | want | hearRequest | hearReply | settle | form | release => trivial

theorem Orderly.next (h : Orderly live s) (he : s.Enabled live e) (hA : RequestsFirst s e)
    (hB : OwnReplies s e) (hC : KeepsNewer s e) : Orderly live (s.next live e) where
  basic := h.basic.next he
  replies := h.replies.next h.basic he hB
  delivered := h.delivered.next h.basic he (keepsPending_of_keepsNewer h he hC)
  announced := Announced.next h.announced he
  awaited := Awaited.next h he
  renewed := Renewed.next h he
  accounted := Accounted.next h he hA
  between := Between.next h he
  ahead := Ahead.next h he hA hB hC

end Steps

end GroupAdmission
