import HaresBears.AdmissionSafety

/-!
Overtaking. A process has its request acknowledged by everybody between two parties that it
leads, so a process that waits is overtaken by each other at most once: of two parties of
one leader the first starts before the ticket of any process that still waits unclaimed.
-/
namespace GroupAdmission

open State

variable {ι : Type*} [LinearOrder ι]

structure Paced (live : ι → Prop) (s : State ι) : Prop where
  started : ∀ f, s.formed f → f.ts ≤ s.clock f.leader
  renewed : ∀ f t, s.formed f → s.ticket f.leader = some t → f.ts < t
  acknowledged : ∀ f f' q, s.formed f → s.formed f' → f.leader = f'.leader → f.ts < f'.ts →
    live q → q ≠ f.leader → f.ts < s.clock q
  overtaken : ∀ f f' q t, s.formed f → s.formed f' → f.leader = f'.leader → f.ts < f'.ts →
    q ≠ f.leader → s.ticket q = some t → ¬ Claimed s q → f.ts < t

section Steps

variable {live : ι → Prop} {s : State ι} {e : Event ι} {p q : ι} {g : List ι} {t c : ℕ}

private theorem started_next (h : Paced live s) (he : s.Enabled live e) :
    ∀ f, (s.next live e).formed f → f.ts ≤ (s.next live e).clock f.leader := by
  intro f hf
  rcases formed_origin hf with hold | ⟨p, g, c, rfl, rfl⟩
  · exact Nat.le_trans (h.started f hold) (clock_mono he f.leader)
  · simp [State.next]

private theorem renewed_next (h : Paced live s) (he : s.Enabled live e) :
    ∀ f t, (s.next live e).formed f → (s.next live e).ticket f.leader = some t → f.ts < t := by
  intro f t hf ht
  rcases formed_origin hf with hold | ⟨p, g, c, rfl, rfl⟩
  · rcases ticket_origin ht with ht | rfl
    · exact h.renewed f t hold ht
    · exact Nat.lt_of_le_of_lt (h.started f hold) he.2.2
  · simp [State.next] at ht

/-- The leader of a party about to form has led its parties so far before its ticket, which
everybody has acknowledged. -/
theorem Paced.form_after (h : Paced live s) (hb : Basic live s) (hr : Replies s)
    (he : s.Enabled live (.form p g c)) {f : Formation ι} (hf : s.formed f) (hp : f.leader = p) :
    ∃ u, s.ticket p = some u ∧ f.ts < u ∧ ∀ q, live q → q ≠ p → u < s.clock q := by
  obtain ⟨u, hu⟩ := Option.ne_none_iff_exists'.mp ((hb.pending p).mpr (Or.inr he.1))
  refine ⟨u, hu, h.renewed f u hf (hp.symm ▸ hu), ?_⟩
  intro q hq hne
  exact (hr.informed p q u hne hu (hb.complete p q he.1 hq)).1

/-- Of two formations of one leader an event can add the later one only. -/
theorem Paced.formed_pair (h : Paced live s) (he : s.Enabled live e) {f f' : Formation ι}
    (hf : (s.next live e).formed f) (hf' : (s.next live e).formed f')
    (hlead : f.leader = f'.leader) (hlt : f.ts < f'.ts) :
    s.formed f ∧ (s.formed f' ∨
      ∃ g c, e = .form f.leader g c ∧ f' = ⟨f.leader, c, g, s.replica f.leader⟩) := by
  rcases formed_origin hf with hold | ⟨p, g, c, rfl, rfl⟩
  · refine ⟨hold, ?_⟩
    rcases formed_origin hf' with hold' | ⟨p, g, c, rfl, rfl⟩
    · exact Or.inl hold'
    · dsimp only at hlead
      exact Or.inr ⟨g, c, by rw [hlead], by rw [hlead]⟩
  · exfalso
    rcases formed_origin hf' with hold' | ⟨p', g', c', heq, rfl⟩
    · have hle := h.started f' hold'
      have hnew := he.2.2.2.2
      dsimp only at hlead hlt
      rw [← hlead] at hle
      omega
    · cases heq
      exact absurd hlt (Nat.lt_irrefl _)

private theorem acknowledged_next (h : Paced live s) (hb : Basic live s) (hr : Replies s)
    (he : s.Enabled live e) :
    ∀ f f' q, (s.next live e).formed f → (s.next live e).formed f' → f.leader = f'.leader →
      f.ts < f'.ts → live q → q ≠ f.leader → f.ts < (s.next live e).clock q := by
  intro f f' q hf hf' hlead hlt hq hne
  refine Nat.lt_of_lt_of_le ?_ (clock_mono he q)
  obtain ⟨hold, hold' | ⟨g, c, rfl, rfl⟩⟩ := h.formed_pair he hf hf' hlead hlt
  · exact h.acknowledged f f' q hold hold' hlead hlt hq hne
  · obtain ⟨u, -, hbefore, hack⟩ := h.form_after hb hr he hold rfl
    exact Nat.lt_trans hbefore (hack q hq hne)

/-- A process that waits unclaimed after an event has just asked, or waited unclaimed
before it. -/
theorem unclaimed_origin (ht : (s.next live e).ticket q = some t)
    (hc : ¬ Claimed (s.next live e) q) :
    s.ticket q = some t ∧ ¬ Claimed s q ∨ e = .want q t := by
  rcases ticket_origin ht with hold | rfl
  · left
    refine ⟨hold, fun hclaimed => ?_⟩
    rcases claimed_keep live e hclaimed with hn | ⟨a, u, g, c, rfl, hq⟩
    · exact hc hn
    · simp [State.next, hq] at ht
  · exact Or.inr rfl

private theorem overtaken_next (h : Paced live s) (hb : Basic live s) (hr : Replies s)
    (hd : Delivered live s) (he : s.Enabled live e) :
    ∀ f f' q t, (s.next live e).formed f → (s.next live e).formed f' → f.leader = f'.leader →
      f.ts < f'.ts → q ≠ f.leader → (s.next live e).ticket q = some t →
      ¬ Claimed (s.next live e) q → f.ts < t := by
  intro f f' q t hf hf' hlead hlt hne ht hc
  obtain ⟨hold, hcases⟩ := h.formed_pair he hf hf' hlead hlt
  rcases unclaimed_origin ht hc with ⟨hticket, hunclaimed⟩ | rfl
  · rcases hcases with hold' | ⟨g, c, rfl, rfl⟩
    · exact h.overtaken f f' q t hold hold' hlead hlt hne hticket hunclaimed
    · obtain ⟨u, hu, hbefore, -⟩ := h.form_after hb hr he hold rfl
      have hserved := served_in_order hb hr hd he.1 he.2.1 hu hticket hne hunclaimed
      unfold Earlier at hserved
      omega
  · rcases hcases with hold' | ⟨g, c, heq, -⟩
    · have hknown := h.acknowledged f f' q hold hold' hlead hlt he.1 hne
      exact Nat.lt_trans hknown he.2.2
    · cases heq

theorem Paced.next (h : Paced live s) (hb : Basic live s) (hr : Replies s)
    (hd : Delivered live s) (he : s.Enabled live e) : Paced live (s.next live e) where
  started := started_next h he
  renewed := renewed_next h he
  acknowledged := acknowledged_next h hb hr he
  overtaken := overtaken_next h hb hr hd he

end Steps

theorem paced_of_run {live : ι → Prop} {s : State ι} (h : Run live InformsLeaders s) :
    Paced live s := by
  have hboth : (Basic live s ∧ Replies s ∧ Delivered live s) ∧ Paced live s := by
    refine Run.invariant (I := fun s => (Basic live s ∧ Replies s ∧ Delivered live s) ∧
      Paced live s) ⟨informed_of_run .init, ?_⟩ ?_ h
    · constructor <;> simp [State.initial]
    · rintro s e ⟨⟨hb, hr, hd⟩, hp⟩ he hok
      exact ⟨⟨hb.next he, hr.next hb he hok.ownReplies, hd.next hb he hok.keepsPending⟩,
        hp.next hb hr hd he⟩
  exact hboth.2

end GroupAdmission
