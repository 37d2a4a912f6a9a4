import HaresBears.AdmissionSafety

/-!
Group admission between two processes. With one channel each way a start cannot overtake
the request of its member, and a request is answered before the next one is made. So the
orders that safety rests on always hold.
-/
namespace GroupAdmission

open State

variable {ι : Type*} [LinearOrder ι]

def AtMostTwo (live : ι → Prop) : Prop :=
  ∀ p q r, live p → live q → live r → q ≠ p → r ≠ p → r = q

/-- `q` has yet to hear the request of `p` with the ticket `t`, or `p` the reply to it. -/
def Outstanding (s : State ι) (p q : ι) (t : ℕ) : Prop :=
  s.flight p q (.request t) ∨ ∃ u, s.flight q p (.reply u t)

/-- A request that is outstanding is pending, has one reply at most, and is settled before
its process is queued or claimed. -/
structure Paired (live : ι → Prop) (s : State ι) : Prop where
  known : ∀ p r t, s.replica p r = some t → live r
  pending : ∀ p q t, Outstanding s p q t → s.ticket p = some t
  single : ∀ p q t u u', s.flight q p (.reply u t) → s.flight q p (.reply u' t) → u = u'
  acked : ∀ p q t, q ≠ p → s.marked p q → ¬ Outstanding s p q t
  served : ∀ q p u g t, s.flight q p (.start u g) → p ∈ g →
    ¬ s.flight p q (.request t) ∧ ∀ v, s.flight q p (.reply v t) → v < u

structure InEveryOrder (s : State ι) (e : Event ι) : Prop where
  inOrder : InOrder s e
  startsFirst : StartsFirst s e
  keepsPending : KeepsPending s e

section Steps

variable {live : ι → Prop} {s : State ι} {e : Event ι} {p q : ι} {t : ℕ}

theorem outstanding_origin (he : s.Enabled live e) (h : Outstanding (s.next live e) p q t) :
    Outstanding s p q t ∨ e = .want p t := by
  rcases h with hreq | ⟨u, hreply⟩
  · exact (request_origin hreq).imp_left Or.inl
  · rcases reply_origin hreply with hold | rfl
    · exact Or.inl (Or.inr ⟨u, hold⟩)
    · exact Or.inl (Or.inl he.1.1)

private theorem paired_known_next (hb : Basic live s) (h : Paired live s)
    (he : s.Enabled live e) : ∀ p r t, (s.next live e).replica p r = some t → live r := by
  intro p r t hrep
  rcases replica_origin hrep with hold | ⟨rfl, rfl⟩ | ⟨c, rfl⟩
  · exact h.known p r t hold
  · exact he.1
  · exact (hb.endpoints r p _ he.1.1).2.1

omit [LinearOrder ι] in
/-- The ends of an outstanding request. -/
theorem Outstanding.ends (hb : Basic live s) (h : Outstanding s p q t) :
    q ≠ p ∧ live q ∧ live p := by
  rcases h with hreq | ⟨u, hreply⟩
  · obtain ⟨hne, hp, hq⟩ := hb.endpoints p q _ hreq
    exact ⟨hne.symm, hq, hp⟩
  · exact hb.endpoints q p _ hreply

private theorem paired_pending_next (htwo : AtMostTwo live) (hb : Basic live s)
    (h : Paired live s) (he : s.Enabled live e) :
    ∀ p q t, Outstanding (s.next live e) p q t → (s.next live e).ticket p = some t := by
  intro p q t hout
  rcases outstanding_origin he hout with hold | rfl
  · obtain ⟨hne, hq, hp⟩ := hold.ends hb
    by_cases hstart : ∃ q' u g c, e = .hearStart q' p u g c ∧ p ∈ g
    · obtain ⟨q', u, g, c, rfl, hg⟩ := hstart
      obtain ⟨hne', hq', -⟩ := hb.endpoints q' p _ he.1.1
      obtain rfl := htwo p q q' hp hq hq' hne hne'
      obtain ⟨hreq, hreply⟩ := h.served q' p u g t he.1.1 hg
      rcases hold with hf | ⟨v, hf⟩
      · exact absurd hf hreq
      · have hlt := hreply v hf
        have hgt := he.1.2 _ hf (by simp)
        exact absurd (Nat.lt_trans hlt hgt) (Nat.lt_irrefl _)
    by_cases hform : ∃ g c, e = .form p g c
    · obtain ⟨g, c, rfl⟩ := hform
      exact absurd hold (h.acked p q t hne (hb.complete p q he.1 hq))
    · apply ticket_keep hb he (h.pending p q t hold)
      · exact fun q' u g c heq hg => hstart ⟨q', u, g, c, heq, hg⟩
      · exact fun g c heq => hform ⟨g, c, heq⟩
  · simp [next]

private theorem paired_single_next (hr : Replies s) (h : Paired live s)
    (he : s.Enabled live e) : ∀ p q t u u', (s.next live e).flight q p (.reply u t) →
      (s.next live e).flight q p (.reply u' t) → u = u' := by
  intro p q t u u' hu hu'
  have hnew : ∀ v, s.flight q p (.reply v t) → ¬ s.flight p q (.request t) := fun v hv =>
    hr.answering p q v t (h.pending p q t (Or.inr ⟨v, hv⟩)) hv
  rcases reply_origin hu with hold | rfl
  · rcases reply_origin hu' with hold' | rfl
    · exact h.single p q t u u' hold hold'
    · exact absurd he.1.1 (hnew u hold)
  · rcases reply_origin hu' with hold' | heq
    · exact absurd he.1.1 (hnew u' hold')
    · exact (Event.hearRequest.inj heq).2.2.2

private theorem paired_acked_next (hr : Replies s) (h : Paired live s)
    (he : s.Enabled live e) : ∀ p q t, q ≠ p → (s.next live e).marked p q →
      ¬ Outstanding (s.next live e) p q t := by
  intro p q t hne hm hout
  rcases outstanding_origin he hout with hold | rfl
  · rcases marked_origin hm with hm' | ⟨hself, -⟩ | ⟨u, t', c, rfl, -⟩
    · exact h.acked p q t hne hm' hold
    · exact hne hself
    · have ht' := h.pending p q t' (Or.inr ⟨u, he.1.1⟩)
      obtain rfl := Option.some.inj (ht'.symm.trans (h.pending p q t hold))
      rcases hout with hreq | ⟨u', hreply⟩
      · rcases flight_origin hreq with hf | hs
        · exact hr.answering p q u t' ht' he.1.1 hf
        · exact hs
      · rcases flight_next.mp hreply with ⟨hf, hnot⟩ | hs
        · obtain rfl := h.single p q t' u' u hf he.1.1
          exact hnot ⟨rfl, rfl, rfl⟩
        · exact hs
  · simp only [next, if_true] at hm
    exact hne hm

private theorem paired_served_next (ho : Orderly live s) (h : Paired live s)
    (he : s.Enabled live e) : ∀ q p u g t, (s.next live e).flight q p (.start u g) → p ∈ g →
      ¬ (s.next live e).flight p q (.request t) ∧
        ∀ v, (s.next live e).flight q p (.reply v t) → v < u := by
  intro q p u g t hstart hg
  rcases start_origin hstart with hold | rfl
  · obtain ⟨hreq, hreply⟩ := h.served q p u g t hold hg
    constructor
    · intro hf
      rcases request_origin hf with hf' | rfl
      · exact hreq hf'
      · rcases ho.member_pending hold hg with hw | hq
        · exact absurd (hw.symm.trans he.2.1) (by decide)
        · exact absurd (hq.symm.trans he.2.1) (by decide)
    · intro v hf
      rcases reply_origin hf with hf' | rfl
      · exact hreply v hf'
      · exact absurd he.1.1 hreq
  · have hne : p ≠ q := ((ho.basic.next he).endpoints q p _ hstart).1.symm
    obtain ⟨t₀, ht₀, hrep, -⟩ := ho.members he hg hne
    constructor
    · intro hf
      rcases request_origin hf with hf' | heq
      · obtain rfl := Option.some.inj (ht₀.symm.trans (h.pending p q t (Or.inl hf')))
        exact Nat.lt_irrefl _ (ho.basic.replica_flight q p t₀ _ hne hrep hf')
      · cases heq
    · intro v hf
      rcases reply_origin hf with hf' | heq
      · exact Nat.lt_of_le_of_lt (ho.basic.flight_clock q p _ hf') he.2.2.2.2
      · cases heq

theorem Paired.next (htwo : AtMostTwo live) (ho : Orderly live s) (h : Paired live s)
    (he : s.Enabled live e) : Paired live (s.next live e) where
  known := paired_known_next ho.basic h he
  pending := paired_pending_next htwo ho.basic h he
  single := paired_single_next ho.replies h he
  acked := paired_acked_next ho.replies h he
  served := paired_served_next ho h he

/-- Between two processes every event is in order. -/
theorem Paired.inEveryOrder (htwo : AtMostTwo live) (ho : Orderly live s) (h : Paired live s)
    (he : s.Enabled live e) : InEveryOrder s e := by
  have hb := ho.basic
  cases e with
  | hearStart q p u g c =>
    obtain ⟨hne, hq, hp⟩ := hb.endpoints q p _ he.1.1
    have hother : ∀ r, live r → r ≠ p → r = q := fun r hr hrp => htwo p q r hp hq hr hne hrp
    refine ⟨⟨?_, trivial, ?_⟩, trivial, ?_⟩
    · intro r _ hrp t hf
      obtain rfl := hother r (hb.endpoints r p _ hf).2.1 hrp
      exact (he.1.2 _ hf (by simp)).le
    · intro r _ hrp t hrep
      obtain rfl := hother r (h.known p r t hrep) hrp
      exact (hb.replica_flight p r t _ hrp hrep he.1.1).le
    · intro r hr hrp t hrep ht
      obtain rfl := hother r (h.known p r t hrep) hrp
      have hlt := hb.replica_flight p r t _ hrp hrep he.1.1
      have hgt := ho.renewed r p u g r t he.1.1 hr hrp hb.not_self ht
      exact absurd (Nat.lt_trans hlt hgt) (Nat.lt_irrefl _)
  | hearRequest r p t c =>
    obtain ⟨hne, hr, hp⟩ := hb.endpoints r p _ he.1.1
    refine ⟨⟨trivial, trivial, trivial⟩, ?_, trivial⟩
    intro q u g hf _
    obtain ⟨hne', hq, -⟩ := hb.endpoints q p _ hf
    obtain rfl := htwo p r q hp hr hq hne hne'
    exact (he.1.2 _ hf (by simp)).le
  | hearReply q p u t c =>
    refine ⟨⟨trivial, ?_, trivial⟩, trivial, trivial⟩
    exact fun _ => h.pending p q t (Or.inr ⟨u, he.1.1⟩)
  | want | settle | form | release =>
    exact ⟨⟨trivial, trivial, trivial⟩, trivial, trivial⟩

end Steps

/-- Every run of two processes is in order. -/
theorem paired_of_run {live : ι → Prop} {ok : State ι → Event ι → Prop} {s : State ι}
    (htwo : AtMostTwo live) (h : Run live ok s) : Orderly live s ∧ Paired live s := by
  refine Run.invariant (I := fun s => Orderly live s ∧ Paired live s) ?_ ?_ h
  · refine ⟨Orderly.initial live, ?_⟩
    constructor <;> simp [State.initial, Outstanding]
  · intro s e hs he _
    obtain ⟨ho, hpaired⟩ := hs
    obtain ⟨horder, -, -⟩ := hpaired.inEveryOrder htwo ho he
    exact ⟨ho.next he horder.requestsFirst horder.ownReplies horder.keepsNewer,
      hpaired.next htwo ho he⟩

end GroupAdmission
