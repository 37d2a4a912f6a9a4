import Mathlib.Order.Lattice
import Mathlib.Tactic.Tauto

/-!
Group admission by replicated tickets, as an abstract protocol over arbitrary
process identities. A process asks all others with a ticket, is queued once all
have answered, and when it is first in its own replica it may start a party
with any processes of that replica. Messages carry increasing timestamps, so a
FIFO channel is the set of its messages, from which the earliest is taken.
-/
namespace GroupAdmission

inductive Phase where
  | idle
  | waiting
  | queued
  | inParty
  deriving DecidableEq

/-- A request carries the ticket time of its sender, a reply its own time and
the ticket time it answers, a start its own time and the members. -/
inductive Msg (ι : Type*) where
  | request (ts : ℕ)
  | reply (ts asked : ℕ)
  | start (ts : ℕ) (members : List ι)

def Msg.ts {ι : Type*} : Msg ι → ℕ
  | .request ts => ts
  | .reply ts _ => ts
  | .start ts _ => ts

/-- A started party and the replica from which its leader drew the members. -/
structure Formation (ι : Type*) where
  leader : ι
  ts : ℕ
  members : List ι
  replica : ι → Option ℕ

/-- `formed` is a history variable. -/
@[ext] structure State (ι : Type*) where
  phase : ι → Phase
  clock : ι → ℕ
  ticket : ι → Option ℕ
  replica : ι → ι → Option ℕ
  marked : ι → ι → Prop
  flight : ι → ι → Msg ι → Prop
  formed : Formation ι → Prop

/-- In each event `c` is the new clock value of the acting process `p`. -/
inductive Event (ι : Type*) where
  | want (p : ι) (c : ℕ)
  | hearRequest (q p : ι) (t c : ℕ)
  | hearReply (q p : ι) (u t c : ℕ)
  | hearStart (q p : ι) (u : ℕ) (g : List ι) (c : ℕ)
  | settle (p : ι) (c : ℕ)
  | form (p : ι) (g : List ι) (c : ℕ)
  | release (p : ι) (c : ℕ)

variable {ι : Type*} [LinearOrder ι]

def Earlier (t : ℕ) (p : ι) (t' : ℕ) (p' : ι) : Prop := t < t' ∨ t = t' ∧ p < p'

namespace State

def Leads (s : State ι) (p : ι) : Prop :=
  ∃ t, s.replica p p = some t ∧ ∀ q t', s.replica p q = some t' → ¬ Earlier t' q t p

def Earliest (s : State ι) (q p : ι) (m : Msg ι) : Prop :=
  s.flight q p m ∧ ∀ x, s.flight q p x → x ≠ m → m.ts < x.ts

/-- Every event moves the clock of its process past what the process has seen. -/
def Enabled (live : ι → Prop) (s : State ι) : Event ι → Prop
  | .want p c => live p ∧ s.phase p = .idle ∧ s.clock p < c
  | .hearRequest q p t c => s.Earliest q p (.request t) ∧ s.clock p < c ∧ t < c
  | .hearReply q p u t c => s.Earliest q p (.reply u t) ∧ s.clock p < c ∧ u < c
  | .hearStart q p u g c => s.Earliest q p (.start u g) ∧ s.clock p < c ∧ u < c
  | .settle p c => s.phase p = .waiting ∧ (∀ q, live q → s.marked p q) ∧ s.clock p < c
  | .form p g c => s.phase p = .queued ∧ s.Leads p ∧ p ∈ g ∧
      (∀ r ∈ g, (s.replica p r).isSome) ∧ s.clock p < c
  | .release p c => s.phase p = .inParty ∧ s.clock p < c

def next (live : ι → Prop) (s : State ι) : Event ι → State ι
  | .want p c =>
    { s with
      phase := fun a => if a = p then .waiting else s.phase a
      clock := fun a => if a = p then c else s.clock a
      ticket := fun a => if a = p then some c else s.ticket a
      replica := fun a r => if a = p ∧ r = p then some c else s.replica a r
      marked := fun a q => if a = p then q = p else s.marked a q
      flight := fun a b x => s.flight a b x ∨ a = p ∧ b ≠ p ∧ live b ∧ x = .request c }
  | .hearRequest q p t c =>
    { s with
      clock := fun a => if a = p then c else s.clock a
      replica := fun a r => if a = p ∧ r = q then some t else s.replica a r
      flight := fun a b x => s.flight a b x ∧ ¬ (a = q ∧ b = p ∧ x = .request t) ∨
        a = p ∧ b = q ∧ x = .reply c t }
  | .hearReply q p u t c =>
    { s with
      clock := fun a => if a = p then c else s.clock a
      marked := fun a b => s.marked a b ∨ a = p ∧ b = q ∧ s.phase p = .waiting
      flight := fun a b x => s.flight a b x ∧ ¬ (a = q ∧ b = p ∧ x = .reply u t) }
  | .hearStart q p u g c =>
    { s with
      phase := fun a => if a = p ∧ p ∈ g then .inParty else s.phase a
      clock := fun a => if a = p then c else s.clock a
      ticket := fun a => if a = p ∧ p ∈ g then none else s.ticket a
      replica := fun a r => if a = p ∧ r ∈ g then none else s.replica a r
      marked := fun a b => s.marked a b ∧ ¬ (a = p ∧ p ∈ g)
      flight := fun a b x => s.flight a b x ∧ ¬ (a = q ∧ b = p ∧ x = .start u g) }
  | .settle p c =>
    { s with
      phase := fun a => if a = p then .queued else s.phase a
      clock := fun a => if a = p then c else s.clock a }
  | .form p g c =>
    { phase := fun a => if a = p then .inParty else s.phase a
      clock := fun a => if a = p then c else s.clock a
      ticket := fun a => if a = p then none else s.ticket a
      replica := fun a r => if a = p ∧ r ∈ g then none else s.replica a r
      marked := fun a b => s.marked a b ∧ a ≠ p
      flight := fun a b x => s.flight a b x ∨ a = p ∧ b ≠ p ∧ live b ∧ x = .start c g
      formed := fun f => s.formed f ∨ f = ⟨p, c, g, s.replica p⟩ }
  | .release p c =>
    { s with
      phase := fun a => if a = p then .idle else s.phase a
      clock := fun a => if a = p then c else s.clock a
      ticket := fun a => if a = p then none else s.ticket a
      marked := fun a b => s.marked a b ∧ a ≠ p }

def initial : State ι where
  phase _ := .idle
  clock _ := 0
  ticket _ := none
  replica _ _ := none
  marked _ _ := False
  flight _ _ _ := False
  formed _ := False

inductive Run (live : ι → Prop) (ok : State ι → Event ι → Prop) : State ι → Prop
  | init : Run live ok initial
  | step {s : State ι} {e : Event ι} :
      Run live ok s → s.Enabled live e → ok s e → Run live ok (s.next live e)

/-- The invariant rule. -/
theorem Run.invariant {live : ι → Prop} {ok : State ι → Event ι → Prop} {I : State ι → Prop}
    (hinit : I initial)
    (hnext : ∀ s e, I s → s.Enabled live e → ok s e → I (s.next live e))
    {s : State ι} (h : Run live ok s) : I s := by
  induction h with
  | init => exact hinit
  | step _ he hok ih => exact hnext _ _ ih he hok

def Event.Hears : Event ι → ι → ι → Msg ι → Prop
  | .hearRequest q p t _, a, b, x => a = q ∧ b = p ∧ x = .request t
  | .hearReply q p u t _, a, b, x => a = q ∧ b = p ∧ x = .reply u t
  | .hearStart q p u g _, a, b, x => a = q ∧ b = p ∧ x = .start u g
  | _, _, _, _ => False

def Event.Sends (live : ι → Prop) : Event ι → ι → ι → Msg ι → Prop
  | .want p c, a, b, x => a = p ∧ b ≠ p ∧ live b ∧ x = .request c
  | .hearRequest q p t c, a, b, x => a = p ∧ b = q ∧ x = .reply c t
  | .form p g c, a, b, x => a = p ∧ b ≠ p ∧ live b ∧ x = .start c g
  | _, _, _, _ => False

def Event.actor : Event ι → ι
  | .want p _ => p
  | .hearRequest _ p _ _ => p
  | .hearReply _ p _ _ _ => p
  | .hearStart _ p _ _ _ => p
  | .settle p _ => p
  | .form p _ _ => p
  | .release p _ => p

section Steps

variable {live : ι → Prop} {s : State ι} {e : Event ι} {a b p q r : ι} {x y : Msg ι}
variable {t u c : ℕ} {g : List ι}

/-- All other processes stay as they are. -/
theorem next_frame (live : ι → Prop) (s : State ι) (ha : a ≠ Event.actor e) :
    (s.next live e).phase a = s.phase a ∧ (s.next live e).clock a = s.clock a ∧
    (s.next live e).ticket a = s.ticket a ∧ (s.next live e).replica a = s.replica a ∧
    (s.next live e).marked a = s.marked a := by
  cases e <;> simp_all [next, Event.actor]

/-- What is on its way was so before and is not heard, or is sent by the event. -/
theorem flight_next : (s.next live e).flight a b x ↔
    s.flight a b x ∧ ¬ Event.Hears e a b x ∨ Event.Sends live e a b x := by
  cases e with
  | hearRequest => exact Iff.rfl
  | want | form => exact or_congr_left (by simp [Event.Hears])
  | hearReply | hearStart => exact (or_iff_left id).symm
  | settle | release => simp [next, Event.Hears, Event.Sends]

theorem flight_keep (live : ι → Prop) (e : Event ι) (h : s.flight a b x) :
    (s.next live e).flight a b x ∨ Event.Hears e a b x := by
  by_cases hx : Event.Hears e a b x
  · exact Or.inr hx
  · exact Or.inl (flight_next.mpr (Or.inl ⟨h, hx⟩))

theorem flight_origin (h : (s.next live e).flight a b x) :
    s.flight a b x ∨ Event.Sends live e a b x :=
  (flight_next.mp h).imp_left And.left

theorem clock_mono (he : s.Enabled live e) (p : ι) : s.clock p ≤ (s.next live e).clock p := by
  cases e <;> simp only [next, Enabled] at * <;> split <;> grind

/-- A message sent carries the new clock value of its sender. -/
theorem sends_fresh (he : s.Enabled live e) (hs : Event.Sends live e a b x) :
    x.ts = (s.next live e).clock a ∧ s.clock a < x.ts := by
  cases e with
  | want | form =>
    obtain ⟨rfl, -, -, rfl⟩ := hs
    exact ⟨(if_pos rfl).symm, by simp_all [Enabled, Msg.ts]⟩
  | hearRequest =>
    obtain ⟨rfl, -, rfl⟩ := hs
    exact ⟨(if_pos rfl).symm, he.2.1⟩
  | hearReply | hearStart | settle | release => exact hs.elim

omit [LinearOrder ι] in
theorem sends_unique (hx : Event.Sends live e a b x) (hy : Event.Sends live e a b y) : x = y := by
  cases e with
  | want | form => exact hx.2.2.2.trans hy.2.2.2.symm
  | hearRequest => exact hx.2.2.trans hy.2.2.symm
  | hearReply | hearStart | settle | release => exact hx.elim

/-- The only starts in flight after an event that were not before are those of
a party formed by it. -/
theorem start_origin (h : (s.next live e).flight q p (.start u g)) :
    s.flight q p (.start u g) ∨ e = .form q g u := by
  rcases flight_origin h with hold | hs
  · exact Or.inl hold
  · right
    cases e with
    | form =>
      obtain ⟨rfl, -, -, heq⟩ := hs
      obtain ⟨rfl, rfl⟩ := Msg.start.inj heq
      rfl
    | want => cases hs.2.2.2
    | hearRequest => cases hs.2.2
    | hearReply | hearStart | settle | release => exact hs.elim

theorem request_origin (h : (s.next live e).flight q p (.request t)) :
    s.flight q p (.request t) ∨ e = .want q t := by
  rcases flight_origin h with hold | hs
  · exact Or.inl hold
  · right
    cases e with
    | want =>
      obtain ⟨rfl, -, -, heq⟩ := hs
      obtain rfl := Msg.request.inj heq
      rfl
    | form => cases hs.2.2.2
    | hearRequest => cases hs.2.2
    | hearReply | hearStart | settle | release => exact hs.elim

theorem reply_origin (h : (s.next live e).flight q p (.reply u t)) :
    s.flight q p (.reply u t) ∨ e = .hearRequest p q t u := by
  rcases flight_origin h with hold | hs
  · exact Or.inl hold
  · right
    cases e with
    | hearRequest =>
      obtain ⟨rfl, rfl, heq⟩ := hs
      obtain ⟨rfl, rfl⟩ := Msg.reply.inj heq
      rfl
    | want | form => cases hs.2.2.2
    | hearReply | hearStart | settle | release => exact hs.elim

/-- A pending ticket was pending before or has just been taken. -/
theorem ticket_origin (ht : (s.next live e).ticket r = some t) :
    s.ticket r = some t ∨ e = .want r t := by
  cases e with
  | want a c =>
    by_cases hr : r = a
    · subst hr
      simp only [next, if_true] at ht
      exact Or.inr (congrArg _ (Option.some.inj ht))
    · simp only [next, if_neg hr] at ht
      exact Or.inl ht
  | hearRequest | hearReply | settle => exact Or.inl ht
  | hearStart | form | release => exact Or.inl (Option.ite_none_left_eq_some.mp ht).2

/-- A ticket in a replica was there before, or its owner has just taken it, or its
request has just been heard. -/
theorem replica_origin (h : (s.next live e).replica p r = some t) :
    s.replica p r = some t ∨ (r = p ∧ e = .want p t) ∨ ∃ c, e = .hearRequest r p t c := by
  cases e with
  | want a c =>
    by_cases hx : p = a ∧ r = a
    · obtain ⟨rfl, rfl⟩ := hx
      simp only [next, and_self, if_true] at h
      exact Or.inr (Or.inl ⟨rfl, congrArg _ (Option.some.inj h)⟩)
    · simp only [next, if_neg hx] at h
      exact Or.inl h
  | hearRequest a b t' c =>
    by_cases hx : p = b ∧ r = a
    · obtain ⟨rfl, rfl⟩ := hx
      simp only [next, and_self, if_true] at h
      obtain rfl := Option.some.inj h
      exact Or.inr (Or.inr ⟨c, rfl⟩)
    · simp only [next, if_neg hx] at h
      exact Or.inl h
  | hearReply | settle | release => exact Or.inl h
  | hearStart | form => exact Or.inl (Option.ite_none_left_eq_some.mp h).2

/-- A ticket of a peer stays in a replica until another request of the peer or a start
that names it is heard, or a party with it is formed. -/
theorem replica_keep (live : ι → Prop) (e : Event ι) (hne : r ≠ p)
    (h : s.replica p r = some t) :
    (s.next live e).replica p r = some t ∨ (∃ t' c, e = .hearRequest r p t' c) ∨
      (∃ q u g c, e = .hearStart q p u g c ∧ r ∈ g) ∨ ∃ g c, e = .form p g c ∧ r ∈ g := by
  cases e with
  | want a c =>
    have hx : ¬ (p = a ∧ r = a) := fun hx => hne (hx.2.trans hx.1.symm)
    exact Or.inl (by simpa only [next, if_neg hx] using h)
  | hearRequest a b t' c =>
    by_cases hx : p = b ∧ r = a
    · obtain ⟨rfl, rfl⟩ := hx
      exact Or.inr (Or.inl ⟨t', c, rfl⟩)
    · exact Or.inl (by simpa only [next, if_neg hx] using h)
  | hearStart a b u g c =>
    by_cases hx : p = b ∧ r ∈ g
    · obtain ⟨rfl, hr⟩ := hx
      exact Or.inr (Or.inr (Or.inl ⟨a, u, g, c, rfl, hr⟩))
    · exact Or.inl (by simpa only [next, if_neg hx] using h)
  | form a g c =>
    by_cases hx : p = a ∧ r ∈ g
    · obtain ⟨rfl, hr⟩ := hx
      exact Or.inr (Or.inr (Or.inr ⟨g, c, rfl, hr⟩))
    · exact Or.inl (by simpa only [next, if_neg hx] using h)
  | hearReply | settle | release => exact Or.inl h

/-- A mark was there before, or it is the own mark of a new request, or a reply has
just been heard. -/
theorem marked_origin (h : (s.next live e).marked p q) :
    s.marked p q ∨ (q = p ∧ ∃ c, e = .want p c) ∨
      ∃ u t c, e = .hearReply q p u t c ∧ s.phase p = .waiting := by
  cases e with
  | want a c =>
    by_cases hp : p = a
    · subst hp
      simp only [next, if_true] at h
      exact Or.inr (Or.inl ⟨h, c, rfl⟩)
    · simp only [next, if_neg hp] at h
      exact Or.inl h
  | hearReply a b u t c =>
    rcases h with hold | ⟨rfl, rfl, hw⟩
    · exact Or.inl hold
    · exact Or.inr (Or.inr ⟨u, t, c, rfl, hw⟩)
  | hearRequest | settle => exact Or.inl h
  | hearStart | form | release => exact Or.inl h.1

/-- A process that is not idle was not before, or it has just asked, or it has just
heard a start. -/
theorem active_origin (he : s.Enabled live e) (h : (s.next live e).phase p ≠ .idle) :
    s.phase p ≠ .idle ∨ (∃ c, e = .want p c) ∨ ∃ q u g c, e = .hearStart q p u g c := by
  by_cases hold : s.phase p = .idle
  · right
    cases e with
    | want a c =>
      have hp : p = a := by
        by_contra hp
        simp only [next, if_neg hp] at h
        exact h hold
      exact Or.inl ⟨c, by rw [hp]⟩
    | hearStart a b u g c =>
      have hp : p = b ∧ b ∈ g := by
        by_contra hp
        simp only [next, if_neg hp] at h
        exact h hold
      obtain ⟨rfl, -⟩ := hp
      exact Or.inr ⟨a, u, g, c, rfl⟩
    | settle a c | form a g c | release a c =>
      exfalso
      by_cases hp : p = a
      · subst hp
        simp_all [Enabled]
      · simp only [next, if_neg hp] at h
        exact h hold
    | hearRequest | hearReply => exact absurd hold h
  · exact Or.inl hold

theorem start_keep (live : ι → Prop) (e : Event ι) (h : s.flight q p (.start u g)) :
    (s.next live e).flight q p (.start u g) ∨ ∃ c, e = .hearStart q p u g c := by
  rcases flight_keep live e h with hn | hx
  · exact Or.inl hn
  · right
    cases e with
    | hearStart q' p' u' g' c =>
      obtain ⟨rfl, rfl, heq⟩ := hx
      obtain ⟨rfl, rfl⟩ := Msg.start.inj heq
      exact ⟨c, rfl⟩
    | hearRequest | hearReply => exact absurd hx.2.2 (by simp)
    | want | settle | form | release => exact hx.elim

theorem request_keep (live : ι → Prop) (e : Event ι) (h : s.flight q p (.request t)) :
    (s.next live e).flight q p (.request t) ∨ ∃ c, e = .hearRequest q p t c := by
  rcases flight_keep live e h with hn | hx
  · exact Or.inl hn
  · right
    cases e with
    | hearRequest q' p' t' c =>
      obtain ⟨rfl, rfl, heq⟩ := hx
      obtain rfl := Msg.request.inj heq
      exact ⟨c, rfl⟩
    | hearStart | hearReply => exact absurd hx.2.2 (by simp)
    | want | settle | form | release => exact hx.elim

end Steps

end State

end GroupAdmission
