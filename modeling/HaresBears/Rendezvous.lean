import HaresBears.EventLoop

/-!
The loops over a network without buffers. A message is written only while its receiver
takes messages, and is handed over at once. Every run of these loops is a run of the
loops over channels; but two processes that write to each other do so for ever.
-/
namespace FifoNetwork

variable {ι σ μ ν ε : Type*} [DecidableEq ι]

namespace Protocol

variable (P : Protocol ι σ μ ε) (enc : μ → ν) (dec : ν → Option μ)

/-- The channels stay empty, so that nothing is taken from them. -/
def meetNext [DecidablePred P.live] (v : LoopWorld ι σ μ ν) :
    Move ι ε → Option (LoopWorld ι σ μ ν)
  | .write p =>
    match v.outbox p with
    | [] => none
    | (q, m) :: rest =>
      if v.stage q = .taking ∧ v.outbox q = [] then
        some { v with
          batch := Function.update v.batch q
            (v.batch q ++ (dec (enc m)).toList.map (fun m => (p, m)))
          outbox := Function.update v.outbox p rest }
      else none
  | .take src p => P.loopNext enc dec v (.take src p)
  | .stop p => P.loopNext enc dec v (.stop p)
  | .handle p env => P.loopNext enc dec v (.handle p env)
  | .turn p env => P.loopNext enc dec v (.turn p env)

inductive Meets [DecidablePred P.live] (v : LoopWorld ι σ μ ν) : LoopWorld ι σ μ ν → Prop
  | refl : Meets v v
  | step {u u' : LoopWorld ι σ μ ν} {l : Move ι ε} :
      Meets v u → P.meetNext enc dec u l = some u' → Meets v u'

end Protocol

structure Crossed (v : LoopWorld ι σ μ ν) (p q : ι) : Prop where
  there : ∃ m rest, v.outbox p = (q, m) :: rest
  back : ∃ m rest, v.outbox q = (p, m) :: rest

section Meeting

variable {P : Protocol ι σ μ ε} [DecidablePred P.live] {enc : μ → ν} {dec : ν → Option μ}
variable {v v' : LoopWorld ι σ μ ν} {l : Move ι ε} {p q : ι}

/-- Everything a move can be: one of the loops over channels that writes nothing, or a
message written while its receiver takes messages. -/
theorem Protocol.meetNext_cases (h : P.meetNext enc dec v l = some v') :
    (P.loopNext enc dec v l = some v' ∧ ∀ p, l ≠ .write p) ∨
    (∃ p q m rest, l = .write p ∧ v.outbox p = (q, m) :: rest ∧ v.stage q = .taking ∧
      v.outbox q = [] ∧ v' = { v with
        batch := Function.update v.batch q
          (v.batch q ++ (dec (enc m)).toList.map (fun m => (p, m)))
        outbox := Function.update v.outbox p rest }) := by
  cases l with
  | take src p | stop p | handle p env | turn p env =>
    left
    exact ⟨h, by simp⟩
  | write p =>
    right
    simp only [Protocol.meetNext] at h
    split at h
    · cases h
    · rename_i q m rest hp
      split at h
      · rename_i hguard
        exact ⟨p, q, m, rest, rfl, hp, hguard.1, hguard.2, (Option.some.inj h).symm⟩
      · cases h

theorem chan_of_loopNext (h : P.loopNext enc dec v l = some v') (hempty : ∀ a b, v.chan a b = [])
    (hl : ∀ p, l ≠ .write p) : ∀ a b, v'.chan a b = [] := by
  rcases Protocol.loopNext_cases h with ⟨src, p, buffer, rest, -, -, -, hc, rfl⟩ |
    ⟨p, -, -, -, rfl⟩ | ⟨p, env, src, m, batch, -, -, -, -, rfl⟩ |
    ⟨p, env, -, -, -, -, -, rfl⟩ | ⟨p, q, m, outbox, rfl, -, -⟩
  · rw [hempty] at hc
    cases hc
  · exact hempty
  · exact hempty
  · exact hempty
  · exact absurd rfl (hl p)

/-- Writing a message and taking it at once. -/
theorem loopReachable_handed {m : μ} {rest : List (ι × μ)} (h : P.LoopReachable enc dec v)
    (hempty : ∀ a b, v.chan a b = []) (hp : v.outbox p = (q, m) :: rest)
    (hstage : v.stage q = .taking) (hq : v.outbox q = []) :
    P.LoopReachable enc dec { v with
      batch := Function.update v.batch q
        (v.batch q ++ (dec (enc m)).toList.map (fun m => (p, m)))
      outbox := Function.update v.outbox p rest } := by
  have hne : q ≠ p := by
    rintro rfl
    rw [hp] at hq
    cases hq
  have hwrite : P.LoopReachable enc dec { v with
      chan := fun a b => if a = p ∧ b = q then v.chan a b ++ [enc m] else v.chan a b
      outbox := Function.update v.outbox p rest } := by
    refine .step (l := .write p) h ?_
    simp only [Protocol.loopNext, hp]
  refine .step (l := .take p q) hwrite ?_
  have hchan : v.chan = fun _ _ => [] := funext fun a => funext fun b => hempty a b
  simp only [Protocol.loopNext, hchan, hstage, Function.update_of_ne hne, hq, and_self, if_true,
    List.nil_append]
  congr 2
  funext a b
  split <;> rfl

/-- Handing messages over is a way to run the loops. -/
theorem loopReachable_of_meets (h : P.Meets enc dec P.loopInitial v) :
    P.LoopReachable enc dec v ∧ ∀ a b, v.chan a b = [] := by
  induction h with
  | refl => exact ⟨.init, fun _ _ => rfl⟩
  | @step u u' l _ hn ih =>
    obtain ⟨hu, hempty⟩ := ih
    rcases Protocol.meetNext_cases hn with ⟨hsame, hl⟩ | ⟨p, q, m, rest, -, hp, hstage, hq, rfl⟩
    · exact ⟨.step hu hsame, chan_of_loopNext hsame hempty hl⟩
    · exact ⟨loopReachable_handed hu hempty hp hstage hq, hempty⟩

/-- A process that has something to write waits for the receiver, whatever happens. -/
theorem meetNext_writing (h : P.meetNext enc dec v l = some v') (hp : v.outbox p ≠ []) :
    (v'.node p = v.node p ∧ v'.outbox p = v.outbox p) ∨
      ∃ q m rest, v.outbox p = (q, m) :: rest ∧ v.outbox q = [] := by
  have hother : ∀ r, v.outbox r = [] → p ≠ r := by
    rintro r hr rfl
    exact hp hr
  rcases Protocol.meetNext_cases h with ⟨hsame, hl⟩ | ⟨r, q, m, rest, -, hr, -, hq, rfl⟩
  · left
    rcases Protocol.loopNext_cases hsame with ⟨src, r, buffer, rest, -, -, -, -, rfl⟩ |
      ⟨r, -, -, -, rfl⟩ | ⟨r, env, src, m, batch, -, -, hr, -, rfl⟩ |
      ⟨r, env, -, -, -, hr, -, rfl⟩ | ⟨r, q, m, outbox, rfl, -, -⟩
    · exact ⟨rfl, rfl⟩
    · exact ⟨rfl, rfl⟩
    · exact ⟨Function.update_of_ne (hother r hr) .., Function.update_of_ne (hother r hr) ..⟩
    · exact ⟨Function.update_of_ne (hother r hr) .., Function.update_of_ne (hother r hr) ..⟩
    · exact absurd rfl (hl r)
  · by_cases hpr : p = r
    · subst hpr
      exact Or.inr ⟨q, m, rest, hr, hq⟩
    · exact Or.inl ⟨rfl, Function.update_of_ne hpr ..⟩

/-- Two processes that write to each other never get any further. -/
theorem Crossed.meets (hc : Crossed v p q) (h : P.Meets enc dec v v') :
    (v'.node p = v.node p ∧ v'.outbox p = v.outbox p) ∧
      v'.node q = v.node q ∧ v'.outbox q = v.outbox q := by
  obtain ⟨⟨m, rest, hp⟩, ⟨m', rest', hq⟩⟩ := hc
  induction h with
  | refl => exact ⟨⟨rfl, rfl⟩, rfl, rfl⟩
  | @step u u' l _ hn ih =>
    obtain ⟨⟨hnodep, hup⟩, hnodeq, huq⟩ := ih
    rw [hp] at hup
    rw [hq] at huq
    rw [hp, hq]
    constructor
    · rcases meetNext_writing hn (p := p) (by simp [hup]) with ⟨hnode, hout⟩ | ⟨r, x, xs, hr, hfree⟩
      · exact ⟨hnode.trans hnodep, hout.trans hup⟩
      · rw [hup] at hr
        cases hr
        rw [huq] at hfree
        cases hfree
    · rcases meetNext_writing hn (p := q) (by simp [huq]) with ⟨hnode, hout⟩ | ⟨r, x, xs, hr, hfree⟩
      · exact ⟨hnode.trans hnodeq, hout.trans huq⟩
      · rw [huq] at hr
        cases hr
        rw [hup] at hfree
        cases hfree

/-- A process that takes nothing polls at once. -/
theorem Protocol.Meets.turn {v₀ : LoopWorld ι σ μ ν} (h : P.Meets enc dec v₀ v) (hlive : P.live p)
    (hstage : v.stage p = .taking) (hbatch : v.batch p = []) (hout : v.outbox p = []) (env : ε) :
    ∃ v', P.Meets enc dec v₀ v' ∧
      v'.outbox = Function.update v.outbox p (letters (P.onPoll p (v.node p) env).2) ∧
      v'.stage = v.stage ∧ v'.batch = v.batch ∧ ∀ q, q ≠ p → v'.node q = v.node q := by
  have hstop : P.Meets enc dec v₀ { v with stage := Function.update v.stage p .handling } := by
    refine .step (l := .stop p) h ?_
    simp [Protocol.meetNext, Protocol.loopNext, hstage, hout]
  refine ⟨{ v with
    node := Function.update v.node p (P.onPoll p (v.node p) env).1
    outbox := Function.update v.outbox p (letters (P.onPoll p (v.node p) env).2)
    stage := Function.update v.stage p .taking }, ?_, rfl, ?_, rfl, ?_⟩
  · refine .step (l := .turn p env) hstop ?_
    simp [Protocol.meetNext, Protocol.loopNext, hlive, hout, hbatch]
  · rw [← hstage, Function.update_eq_self]
  · exact fun q hq => Function.update_of_ne hq ..

end Meeting

end FifoNetwork
