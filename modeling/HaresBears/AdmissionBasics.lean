import HaresBears.GroupAdmission

/-!
What every run of group admission keeps, whatever the order of its messages:
timestamps stay behind clocks, each process agrees with its own replica, and
what is in flight from a process is newer than what its peer holds of it.
-/
namespace GroupAdmission

open State

variable {ι : Type*} [LinearOrder ι]

structure Basic (live : ι → Prop) (s : State ι) : Prop where
  active : ∀ p, s.phase p ≠ .idle → live p
  endpoints : ∀ q p x, s.flight q p x → q ≠ p ∧ live q ∧ live p
  flight_clock : ∀ q p x, s.flight q p x → x.ts ≤ s.clock q
  distinct : ∀ q p x y, s.flight q p x → s.flight q p y → x.ts = y.ts → x = y
  start_leader : ∀ q p u g, s.flight q p (.start u g) → q ∈ g
  reply_asked : ∀ q p u t, s.flight q p (.reply u t) → t < u ∧ t ≤ s.clock p
  own : ∀ p t, s.ticket p = some t ↔ s.replica p p = some t
  pending : ∀ p, s.ticket p ≠ none ↔ s.phase p = .waiting ∨ s.phase p = .queued
  complete : ∀ p q, s.phase p = .queued → live q → s.marked p q
  replica_live : ∀ p q t, s.replica p q = some t → live p
  replica_clock : ∀ p q t, s.replica p q = some t → t ≤ s.clock p ∧ t ≤ s.clock q
  replica_flight : ∀ p q t x, q ≠ p → s.replica p q = some t → s.flight q p x → t < x.ts
  replica_ticket : ∀ p q t t', s.replica p q = some t → s.ticket q = some t' → t ≤ t'
  request_ticket : ∀ q p t t', s.flight q p (.request t) → s.ticket q = some t' → t ≤ t'

variable {live : ι → Prop} {s : State ι} {e : Event ι}

omit [LinearOrder ι] in
theorem Basic.live_of_ticket {p : ι} {t : ℕ} (hb : Basic live s)
    (ht : s.ticket p = some t) : live p := by
  apply hb.active
  rcases (hb.pending p).mp (by simp [ht]) with h | h <;> simp [h]

omit [LinearOrder ι] in
theorem Basic.not_self (hb : Basic live s) {p : ι} {x : Msg ι} : ¬ s.flight p p x :=
  fun h => (hb.endpoints p p x h).1 rfl

section Steps

private theorem active_next (h : Basic live s) (he : s.Enabled live e) :
    ∀ p, (s.next live e).phase p ≠ .idle → live p := by
  intro p hp
  rcases active_origin he hp with hold | ⟨c, rfl⟩ | ⟨q, u, g, c, rfl⟩
  · exact h.active p hold
  · exact he.1
  · exact (h.endpoints q p _ he.1.1).2.2

private theorem endpoints_next (h : Basic live s) (he : s.Enabled live e) :
    ∀ q p x, (s.next live e).flight q p x → q ≠ p ∧ live q ∧ live p := by
  intro q p x hx
  rcases flight_origin hx with hold | hs
  · exact h.endpoints q p x hold
  · cases e with
    | want a c =>
      obtain ⟨rfl, hne, hl, -⟩ := hs
      exact ⟨hne.symm, he.1, hl⟩
    | hearRequest b a t c =>
      obtain ⟨rfl, rfl, -⟩ := hs
      obtain ⟨hne, hlq, hlp⟩ := h.endpoints _ _ _ he.1.1
      exact ⟨hne.symm, hlp, hlq⟩
    | form a g c =>
      obtain ⟨rfl, hne, hl, -⟩ := hs
      exact ⟨hne.symm, h.active q (by simp [he.1]), hl⟩
    | hearReply | hearStart | settle | release => exact hs.elim

private theorem flight_clock_next (h : Basic live s) (he : s.Enabled live e) :
    ∀ q p x, (s.next live e).flight q p x → x.ts ≤ (s.next live e).clock q := by
  intro q p x hx
  rcases flight_origin hx with hold | hs
  · exact (h.flight_clock q p x hold).trans (clock_mono he q)
  · exact (sends_fresh he hs).1.le

private theorem distinct_next (h : Basic live s) (he : s.Enabled live e) :
    ∀ q p x y, (s.next live e).flight q p x → (s.next live e).flight q p y →
      x.ts = y.ts → x = y := by
  intro q p x y hx hy hxy
  rcases flight_origin hx with hold | hs <;> rcases flight_origin hy with hold' | hs'
  · exact h.distinct q p x y hold hold' hxy
  · have hle := h.flight_clock q p x hold
    have hlt := (sends_fresh he hs').2
    omega
  · have hle := h.flight_clock q p y hold'
    have hlt := (sends_fresh he hs).2
    omega
  · exact sends_unique hs hs'

private theorem start_leader_next (h : Basic live s) (he : s.Enabled live e) :
    ∀ q p u g, (s.next live e).flight q p (.start u g) → q ∈ g := by
  intro q p u g hf
  rcases start_origin hf with hf | rfl
  · exact h.start_leader q p u g hf
  · exact he.2.2.1

private theorem reply_asked_next (h : Basic live s) (he : s.Enabled live e) :
    ∀ q p u t, (s.next live e).flight q p (.reply u t) →
      t < u ∧ t ≤ (s.next live e).clock p := by
  intro q p u t hf
  rcases reply_origin hf with hold | rfl
  · obtain ⟨hlt, hle⟩ := h.reply_asked q p u t hold
    exact ⟨hlt, hle.trans (clock_mono he p)⟩
  · have hle := h.flight_clock p q _ he.1.1
    exact ⟨he.2.2, hle.trans (clock_mono he p)⟩

private theorem own_next (h : Basic live s) (he : s.Enabled live e) :
    ∀ p t, (s.next live e).ticket p = some t ↔ (s.next live e).replica p p = some t := by
  intro p t
  have hown := h.own p t
  cases e with
  | want a c =>
    by_cases hp : p = a
    · simp [next, hp]
    · simpa [next, hp] using hown
  | hearRequest b a t' c =>
    have hne := (h.endpoints b a _ he.1.1).1
    have hself : ¬ (p = a ∧ p = b) := fun hx => hne (hx.2.symm.trans hx.1)
    simpa only [next, if_neg hself] using hown
  | hearReply | settle => exact hown
  | hearStart b a u g c =>
    by_cases hp : p = a
    · subst hp
      by_cases hg : p ∈ g <;> simp [next, hg, hown]
    · simpa [next, hp] using hown
  | form a g c =>
    have hg := he.2.2.1
    by_cases hp : p = a
    · simp [next, hp, hg]
    · simpa [next, hp] using hown
  | release a c =>
    by_cases hp : p = a
    · subst hp
      have hnone : s.ticket p = none := by
        by_contra hne
        have hphase := (h.pending p).mp hne
        simp [he.1] at hphase
      rw [hnone] at hown
      simpa [next] using hown
    · simpa [next, hp] using hown

private theorem pending_next (h : Basic live s) (he : s.Enabled live e) :
    ∀ p, (s.next live e).ticket p ≠ none ↔
      (s.next live e).phase p = .waiting ∨ (s.next live e).phase p = .queued := by
  intro p
  have hpend := h.pending p
  cases e with
  | hearRequest | hearReply => exact hpend
  | hearStart b a u g c =>
    by_cases hp : p = a ∧ a ∈ g
    · simp [next, hp]
    · simpa only [next, if_neg hp] using hpend
  | settle a c =>
    by_cases hp : p = a
    · subst hp
      simpa [next, he.1] using hpend
    · simpa [next, hp] using hpend
  | want a c | form a g c | release a c =>
    by_cases hp : p = a
    · simp [next, hp]
    · simpa [next, hp] using hpend

private theorem complete_next (h : Basic live s) (he : s.Enabled live e) :
    ∀ p q, (s.next live e).phase p = .queued → live q → (s.next live e).marked p q := by
  intro p q
  have hcomp := h.complete p q
  cases e with
  | hearRequest => exact hcomp
  | hearReply => exact fun hq hl => Or.inl (hcomp hq hl)
  | hearStart b a u g c =>
    by_cases hp : p = a ∧ a ∈ g
    · simp [next, hp]
    · intro hq hl
      simp only [next, if_neg hp] at hq
      exact ⟨hcomp hq hl, hp⟩
  | settle a c =>
    by_cases hp : p = a
    · subst hp
      exact fun _ hl => he.2.1 q hl
    · simpa [next, hp] using hcomp
  | want a c | form a g c | release a c =>
    by_cases hp : p = a
    · simp [next, hp]
    · simpa [next, hp] using hcomp

private theorem replica_live_next (h : Basic live s) (he : s.Enabled live e) :
    ∀ p q t, (s.next live e).replica p q = some t → live p := by
  intro p q t hrep
  rcases replica_origin hrep with hold | ⟨-, rfl⟩ | ⟨c, rfl⟩
  · exact h.replica_live p q t hold
  · exact he.1
  · exact (h.endpoints q p _ he.1.1).2.2

private theorem replica_clock_next (h : Basic live s) (he : s.Enabled live e) :
    ∀ p q t, (s.next live e).replica p q = some t →
      t ≤ (s.next live e).clock p ∧ t ≤ (s.next live e).clock q := by
  intro p q t hrep
  rcases replica_origin hrep with hold | ⟨rfl, rfl⟩ | ⟨c, rfl⟩
  · obtain ⟨hp, hq⟩ := h.replica_clock p q t hold
    exact ⟨hp.trans (clock_mono he p), hq.trans (clock_mono he q)⟩
  · simp [next]
  · have hle := h.flight_clock q p _ he.1.1
    exact ⟨by simpa [next] using he.2.2.le, hle.trans (clock_mono he q)⟩

/-- A request heard was the earliest message of its channel. -/
private theorem replica_flight_next (h : Basic live s) (he : s.Enabled live e) :
    ∀ p q t x, q ≠ p → (s.next live e).replica p q = some t →
      (s.next live e).flight q p x → t < x.ts := by
  intro p q t x hne hrep hx
  rcases replica_origin hrep with hold | ⟨rfl, -⟩ | ⟨c, rfl⟩
  · rcases flight_origin hx with hf | hs
    · exact h.replica_flight p q t x hne hold hf
    · exact (h.replica_clock p q t hold).2.trans_lt (sends_fresh he hs).2
  · exact absurd rfl hne
  · rcases flight_next.mp hx with ⟨hf, hnot⟩ | ⟨rfl, -⟩
    · exact he.1.2 x hf (fun heq => hnot ⟨rfl, rfl, heq⟩)
    · exact absurd rfl hne

private theorem replica_ticket_next (h : Basic live s) (he : s.Enabled live e) :
    ∀ p q t t', (s.next live e).replica p q = some t → (s.next live e).ticket q = some t' →
      t ≤ t' := by
  intro p q t t' hrep ht
  rcases ticket_origin ht with hold' | rfl
  · rcases replica_origin hrep with hold | ⟨rfl, rfl⟩ | ⟨c, rfl⟩
    · exact h.replica_ticket p q t t' hold hold'
    · simp only [next, if_true] at ht
      exact (Option.some.inj ht).le
    · exact h.request_ticket q p t t' he.1.1 hold'
  · rcases replica_origin hrep with hold | ⟨rfl, heq⟩ | ⟨c, heq⟩
    · exact (h.replica_clock p q t hold).2.trans he.2.2.le
    · exact (Event.want.inj heq).2.ge
    · cases heq

private theorem request_ticket_next (h : Basic live s) (he : s.Enabled live e) :
    ∀ q p t t', (s.next live e).flight q p (.request t) → (s.next live e).ticket q = some t' →
      t ≤ t' := by
  intro q p t t' hf ht
  rcases request_origin hf with hold | rfl
  · rcases ticket_origin ht with hold' | rfl
    · exact h.request_ticket q p t t' hold hold'
    · exact (h.flight_clock q p _ hold).trans he.2.2.le
  · simp only [next, if_true] at ht
    exact (Option.some.inj ht).le

theorem Basic.next (h : Basic live s) (he : s.Enabled live e) : Basic live (s.next live e) where
  active := active_next h he
  endpoints := endpoints_next h he
  flight_clock := flight_clock_next h he
  distinct := distinct_next h he
  start_leader := start_leader_next h he
  reply_asked := reply_asked_next h he
  own := own_next h he
  pending := pending_next h he
  complete := complete_next h he
  replica_live := replica_live_next h he
  replica_clock := replica_clock_next h he
  replica_flight := replica_flight_next h he
  replica_ticket := replica_ticket_next h he
  request_ticket := request_ticket_next h he

end Steps

omit [LinearOrder ι] in
theorem Basic.initial (live : ι → Prop) : Basic live State.initial := by
  constructor <;> simp [State.initial]

theorem Basic.of_run {live : ι → Prop} {ok : State ι → Event ι → Prop} {s : State ι}
    (h : Run live ok s) : Basic live s :=
  Run.invariant (Basic.initial live) (fun _ _ hs he _ => hs.next he) h

end GroupAdmission
