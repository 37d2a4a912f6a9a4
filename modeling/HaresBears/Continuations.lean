import HaresBears.InFlight

/-!
Continuations of a run: what can follow a world, step by step. A continuation of a run is
a run, it only adds to the history, and two continuations that meet make one.
-/
namespace FifoNetwork

variable {ι σ μ ε : Type*} [DecidableEq ι]

def Label.env : Label ι ε → ε
  | .deliver _ _ env => env
  | .poll _ env => env

inductive Protocol.Leads (P : Protocol ι σ μ ε) [DecidablePred P.live]
    (ok : World ι σ μ → Label ι ε → World ι σ μ → Prop) (w : World ι σ μ) :
    ℕ → World ι σ μ → Prop
  | refl : Leads P ok w 0 w
  | step {n : ℕ} {v v' : World ι σ μ} {l : Label ι ε} :
      Leads P ok w n v → P.next v l = some v' → ok v l v' → Leads P ok w (n + 1) v'

namespace Protocol

variable {P : Protocol ι σ μ ε} [DecidablePred P.live]
variable {ok ok' : World ι σ μ → Label ι ε → World ι σ μ → Prop}
variable {w v v' : World ι σ μ} {n k : ℕ} {src dst p : ι} {m : μ} {rest : List μ} {env : ε}

theorem Leads.run (h : P.Leads ok w n v) (hw : P.Run ok w) : P.Run ok v := by
  induction h with
  | refl => exact hw
  | step _ hnext hok ih => exact .step ih hnext hok

theorem Leads.mono (hok : ∀ v l v', ok v l v' → ok' v l v') (h : P.Leads ok w n v) :
    P.Leads ok' w n v := by
  induction h with
  | refl => exact .refl
  | step _ hnext hk ih => exact .step ih hnext (hok _ _ _ hk)

theorem Leads.trans (h : P.Leads ok w n v) (h' : P.Leads ok v k v') :
    P.Leads ok w (n + k) v' := by
  induction h' with
  | refl => exact h
  | step _ hnext hok ih => exact .step ih hnext hok

/-- A continuation adds one call a step to the history. -/
theorem Leads.past (h : P.Leads ok w n v) :
    ∃ calls, calls.length = n ∧ v.past = calls ++ w.past := by
  induction h with
  | refl => exact ⟨[], rfl, rfl⟩
  | step _ hnext _ ih =>
    obtain ⟨calls, hlen, hpast⟩ := ih
    obtain ⟨c, hc⟩ := next_past hnext
    exact ⟨c :: calls, by rw [List.length_cons, hlen], by rw [hc, hpast, List.cons_append]⟩

theorem Leads.past_length (h : P.Leads ok w n v) : v.past.length = n + w.past.length := by
  obtain ⟨calls, hlen, hpast⟩ := h.past
  rw [hpast, List.length_append, hlen]

/-- The invariant rule for continuations. -/
theorem Leads.invariant {I : World ι σ μ → Prop}
    (hstep : ∀ v l v', I v → P.next v l = some v' → ok v l v' → I v')
    (h : P.Leads ok w n v) (hI : I w) : I v := by
  induction h with
  | refl => exact hI
  | step _ hnext hok ih => exact hstep _ _ _ ih hnext hok

theorem leads_turn (hp : P.live p) (hok : ok w (.poll p env) (P.turn w p env)) :
    P.Leads ok w 1 (P.turn w p env) :=
  .step (l := .poll p env) .refl (if_pos hp) hok

theorem leads_hear (hchan : w.chan src dst = m :: rest)
    (hok : ok w (.deliver src dst env) (P.hear w src dst env m rest)) :
    P.Leads ok w 1 (P.hear w src dst env m rest) :=
  .step (l := .deliver src dst env) .refl (by simp only [next, hchan]) hok

/-- Deliveries are a continuation. -/
theorem Drains.leads (h : P.Drains ok n w v) : P.Leads ok w n v := by
  induction h with
  | refl => exact .refl
  | @step n w v src dst env m rest hchan hok _ ih =>
    rw [Nat.add_comm]
    exact (leads_hear hchan hok).trans ih

end Protocol

end FifoNetwork
