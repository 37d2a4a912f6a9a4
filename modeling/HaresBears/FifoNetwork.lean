import Mathlib.Logic.Function.Basic
import Mathlib.Data.List.Basic

/-!
Message passing over reliable FIFO channels, one channel for each ordered pair
of processes. A process reacts to the oldest message of one of its channels or
to a poll of its own environment; a reaction is atomic. The history of all
reactions is kept beside the state, and no reaction reads it.
-/
namespace FifoNetwork

structure Packet (ι μ : Type*) where
  dests : List ι
  msg : μ

/-- The reactions of a family of processes. `ε` is what the environment supplies
to a reaction, such as clock readings and random draws. -/
structure Protocol (ι σ μ ε : Type*) where
  live : ι → Prop
  init : ι → σ
  onMsg : ι → σ → ε → ι → μ → σ × List (Packet ι μ)
  onPoll : ι → σ → ε → σ × List (Packet ι μ)

inductive Label (ι ε : Type*) where
  | deliver (src dst : ι) (env : ε)
  | poll (p : ι) (env : ε)

/-- The record of one reaction: who reacted, to which message if any, from which
state into which, and what was sent, in order. -/
structure Call (ι σ μ : Type*) where
  proc : ι
  heard : Option (ι × μ)
  before : σ
  after : σ
  out : List (Packet ι μ)

/-- `past` is the history variable, newest call first. -/
structure World (ι σ μ : Type*) where
  node : ι → σ
  chan : ι → ι → List μ
  past : List (Call ι σ μ)

variable {ι σ μ ε : Type*} [DecidableEq ι]

def addressed (q : ι) (out : List (Packet ι μ)) : List μ :=
  (out.filter (fun pkt => q ∈ pkt.dests)).map Packet.msg

@[simp] theorem addressed_nil (q : ι) : addressed q ([] : List (Packet ι μ)) = [] := rfl

@[simp] theorem addressed_append (q : ι) (xs ys : List (Packet ι μ)) :
    addressed q (xs ++ ys) = addressed q xs ++ addressed q ys := by
  simp [addressed]

theorem addressed_cons (q : ι) (pkt : Packet ι μ) (out : List (Packet ι μ)) :
    addressed q (pkt :: out) =
      (if q ∈ pkt.dests then [pkt.msg] else []) ++ addressed q out := by
  by_cases h : q ∈ pkt.dests <;> simp [addressed, h]

theorem mem_addressed {q : ι} {out : List (Packet ι μ)} {m : μ} :
    m ∈ addressed q out ↔ ∃ pkt ∈ out, q ∈ pkt.dests ∧ pkt.msg = m := by
  simp [addressed, and_assoc]

namespace World

def consume (w : World ι σ μ) (src dst : ι) (rest : List μ) : World ι σ μ :=
  { w with chan := fun a b => if a = src ∧ b = dst then rest else w.chan a b }

def react (w : World ι σ μ) (p : ι) (heard : Option (ι × μ))
    (r : σ × List (Packet ι μ)) : World ι σ μ where
  node := Function.update w.node p r.1
  chan := fun a b => w.chan a b ++ if a = p then addressed b r.2 else []
  past := ⟨p, heard, w.node p, r.1, r.2⟩ :: w.past

@[simp] theorem consume_node (w : World ι σ μ) (src dst : ι) (rest : List μ) :
    (w.consume src dst rest).node = w.node := rfl

@[simp] theorem consume_past (w : World ι σ μ) (src dst : ι) (rest : List μ) :
    (w.consume src dst rest).past = w.past := rfl

theorem react_node_self (w : World ι σ μ) (p : ι) (heard : Option (ι × μ))
    (r : σ × List (Packet ι μ)) : (w.react p heard r).node p = r.1 :=
  Function.update_self ..

theorem react_node_ne (w : World ι σ μ) {p a : ι} (heard : Option (ι × μ))
    (r : σ × List (Packet ι μ)) (h : a ≠ p) : (w.react p heard r).node a = w.node a :=
  Function.update_of_ne h ..

end World

namespace Protocol

variable (P : Protocol ι σ μ ε)

def initial : World ι σ μ := ⟨P.init, fun _ _ => [], []⟩

def hear (w : World ι σ μ) (src p : ι) (env : ε) (m : μ) (rest : List μ) : World ι σ μ :=
  (w.consume src p rest).react p (some (src, m)) (P.onMsg p (w.node p) env src m)

def turn (w : World ι σ μ) (p : ι) (env : ε) : World ι σ μ :=
  w.react p none (P.onPoll p (w.node p) env)

variable {P} in
@[simp] theorem hear_node_self {w : World ι σ μ} {src p : ι} {env : ε} {m : μ} {rest : List μ} :
    (P.hear w src p env m rest).node p = (P.onMsg p (w.node p) env src m).1 :=
  World.react_node_self ..

variable {P} in
theorem hear_node_ne {w : World ι σ μ} {src p q : ι} {env : ε} {m : μ} {rest : List μ}
    (h : q ≠ p) : (P.hear w src p env m rest).node q = w.node q :=
  World.react_node_ne _ _ _ h

variable {P} in
@[simp] theorem turn_node_self {w : World ι σ μ} {p : ι} {env : ε} :
    (P.turn w p env).node p = (P.onPoll p (w.node p) env).1 :=
  World.react_node_self ..

variable {P} in
theorem turn_node_ne {w : World ι σ μ} {p q : ι} {env : ε} (h : q ≠ p) :
    (P.turn w p env).node q = w.node q :=
  World.react_node_ne _ _ _ h

def next [DecidablePred P.live] (w : World ι σ μ) : Label ι ε → Option (World ι σ μ)
  | .deliver src dst env =>
    match w.chan src dst with
    | [] => none
    | m :: rest => some (P.hear w src dst env m rest)
  | .poll p env => if P.live p then some (P.turn w p env) else none

/-- The runs all of whose steps meet `ok`, a condition on the world before the
step, its label and the world after it. -/
inductive Run [DecidablePred P.live]
    (ok : World ι σ μ → Label ι ε → World ι σ μ → Prop) : World ι σ μ → Prop
  | init : Run ok P.initial
  | step {w w' : World ι σ μ} {l : Label ι ε} :
      Run ok w → P.next w l = some w' → ok w l w' → Run ok w'

def Reachable [DecidablePred P.live] : World ι σ μ → Prop := P.Run (fun _ _ _ => True)

def exec [DecidablePred P.live] (ok : World ι σ μ → Label ι ε → World ι σ μ → Prop)
    [∀ w l w', Decidable (ok w l w')] (w : World ι σ μ) : List (Label ι ε) → Option (World ι σ μ)
  | [] => some w
  | l :: ls => (P.next w l).bind (fun w' => if ok w l w' then exec ok w' ls else none)

variable [DecidablePred P.live] {P}
variable {ok ok' : World ι σ μ → Label ι ε → World ι σ μ → Prop}

/-- Everything a step can be: a delivery of the head of a channel or a poll of
a live process. -/
theorem next_cases {w w' : World ι σ μ} {l : Label ι ε} (h : P.next w l = some w') :
    (∃ src dst env m rest, l = .deliver src dst env ∧ w.chan src dst = m :: rest ∧
      w' = P.hear w src dst env m rest) ∨
    (∃ p env, l = .poll p env ∧ P.live p ∧ w' = P.turn w p env) := by
  cases l with
  | deliver src dst env =>
    left
    cases hc : w.chan src dst with
    | nil => simp [next, hc] at h
    | cons m rest =>
      simp only [next, hc, Option.some.injEq] at h
      exact ⟨src, dst, env, m, rest, rfl, hc, h.symm⟩
  | poll p env =>
    right
    by_cases hp : P.live p
    · simp only [next, hp, if_true, Option.some.injEq] at h
      exact ⟨p, env, rfl, hp, h.symm⟩
    · simp [next, hp] at h

theorem next_past {w w' : World ι σ μ} {l : Label ι ε} (h : P.next w l = some w') :
    ∃ c, w'.past = c :: w.past := by
  rcases next_cases h with ⟨src, dst, env, m, rest, -, -, rfl⟩ | ⟨p, env, -, -, rfl⟩
  · exact ⟨_, rfl⟩
  · exact ⟨_, rfl⟩

theorem Run.mono (hok : ∀ w l w', ok w l w' → ok' w l w') {w : World ι σ μ}
    (h : P.Run ok w) : P.Run ok' w := by
  induction h with
  | init => exact .init
  | step _ hn hk ih => exact .step ih hn (hok _ _ _ hk)

theorem Run.reachable {w : World ι σ μ} (h : P.Run ok w) : P.Reachable w :=
  h.mono (fun _ _ _ _ => trivial)

theorem Reachable.hear {w : World ι σ μ} {src dst : ι} {m : μ} {rest : List μ}
    (h : P.Reachable w) (env : ε) (hc : w.chan src dst = m :: rest) :
    P.Reachable (P.hear w src dst env m rest) :=
  .step (l := .deliver src dst env) h (by simp only [next, hc]) trivial

theorem Reachable.turn {w : World ι σ μ} {p : ι} (h : P.Reachable w) (env : ε) (hp : P.live p) :
    P.Reachable (P.turn w p env) :=
  .step (l := .poll p env) h (if_pos hp) trivial

/-- The invariant rule. The step obligation may use that the world before the
step is itself reached by such a run. -/
theorem Run.invariant {I : World ι σ μ → Prop} (hinit : I P.initial)
    (hdeliver : ∀ w src dst env m rest, P.Run ok w → I w → w.chan src dst = m :: rest →
      ok w (.deliver src dst env) (P.hear w src dst env m rest) →
      I (P.hear w src dst env m rest))
    (hpoll : ∀ w p env, P.Run ok w → I w → P.live p →
      ok w (.poll p env) (P.turn w p env) → I (P.turn w p env))
    {w : World ι σ μ} (h : P.Run ok w) : I w := by
  induction h with
  | init => exact hinit
  | @step w w' l hr hn hk ih =>
    rcases next_cases hn with ⟨src, dst, env, m, rest, rfl, hc, rfl⟩ | ⟨p, env, rfl, hp, rfl⟩
    · exact hdeliver w src dst env m rest hr ih hc hk
    · exact hpoll w p env hr ih hp hk

theorem run_exec [∀ w l w', Decidable (ok w l w')] {w w' : World ι σ μ} (hw : P.Run ok w)
    {ls : List (Label ι ε)} (h : P.exec ok w ls = some w') : P.Run ok w' := by
  induction ls generalizing w with
  | nil =>
    simp only [exec, Option.some.injEq] at h
    exact h ▸ hw
  | cons l ls ih =>
    obtain ⟨v, hv, hrest⟩ := Option.bind_eq_some_iff.mp h
    by_cases hk : ok w l v
    · rw [if_pos hk] at hrest
      exact ih (.step hw hv hk) hrest
    · rw [if_neg hk] at hrest
      cases hrest

variable (P ok) in
/-- A run from the initial world, checked by evaluation. -/
theorem exists_of_exec [∀ w l w', Decidable (ok w l w')] (ls : List (Label ι ε))
    (I : World ι σ μ → Prop) [DecidablePred I]
    (h : (P.exec ok P.initial ls).any (fun w => decide (I w)) = true) :
    ∃ w, P.Run ok w ∧ I w := by
  obtain ⟨w, hw, hI⟩ := (Option.any_eq_true ..).mp h
  exact ⟨w, run_exec .init hw, of_decide_eq_true hI⟩

end Protocol

section History

def Call.sentTo (c : Call ι σ μ) (p q : ι) : List μ :=
  if c.proc = p then addressed q c.out else []

def Call.gotFrom (c : Call ι σ μ) (p q : ι) : List μ :=
  match c.heard with
  | some (src, m) => if c.proc = q ∧ src = p then [m] else []
  | none => []

def sent (past : List (Call ι σ μ)) (p q : ι) : List μ :=
  past.reverse.flatMap (fun c => c.sentTo p q)

def got (past : List (Call ι σ μ)) (p q : ι) : List μ :=
  past.reverse.flatMap (fun c => c.gotFrom p q)

@[simp] theorem sent_cons (c : Call ι σ μ) (past : List (Call ι σ μ)) (p q : ι) :
    sent (c :: past) p q = sent past p q ++ c.sentTo p q := by
  simp [sent]

@[simp] theorem got_cons (c : Call ι σ μ) (past : List (Call ι σ μ)) (p q : ι) :
    got (c :: past) p q = got past p q ++ c.gotFrom p q := by
  simp [got]

theorem mem_sent {past : List (Call ι σ μ)} {p q : ι} {m : μ} :
    m ∈ sent past p q ↔ ∃ c ∈ past, c.proc = p ∧ m ∈ addressed q c.out := by
  simp only [sent, List.mem_flatMap, List.mem_reverse, Call.sentTo]
  constructor
  · rintro ⟨c, hc, hm⟩
    by_cases hp : c.proc = p
    · exact ⟨c, hc, hp, by simpa [hp] using hm⟩
    · simp [hp] at hm
  · rintro ⟨c, hc, hp, hm⟩
    exact ⟨c, hc, by simpa [hp] using hm⟩

theorem mem_got {past : List (Call ι σ μ)} {p q : ι} {m : μ} :
    m ∈ got past p q ↔ ∃ c ∈ past, c.proc = q ∧ c.heard = some (p, m) := by
  simp only [got, List.mem_flatMap, List.mem_reverse, Call.gotFrom]
  constructor
  · rintro ⟨c, hc, hm⟩
    cases hh : c.heard with
    | none => simp [hh] at hm
    | some x =>
      by_cases hq : c.proc = q ∧ x.1 = p
      · have hx : m = x.2 := by simpa [hh, hq] using hm
        exact ⟨c, hc, hq.1, by rw [hh, hx, ← hq.2]⟩
      · simp [hh, hq] at hm
  · rintro ⟨c, hc, hq, hh⟩
    exact ⟨c, hc, by simp [hh, hq]⟩

variable {P : Protocol ι σ μ ε} [DecidablePred P.live]
variable {ok : World ι σ μ → Label ι ε → World ι σ μ → Prop}

/-- The FIFO law: what `p` has sent to `q` is what `q` has handled, followed by
what is still in the channel. -/
theorem sent_eq_got_append_chan {w : World ι σ μ} (h : P.Run ok w) (p q : ι) :
    sent w.past p q = got w.past p q ++ w.chan p q := by
  refine Protocol.Run.invariant
    (I := fun w => sent w.past p q = got w.past p q ++ w.chan p q) rfl ?_ ?_ h
  · intro w src dst env m rest _ ih hc _
    have hpop : w.chan p q = (if dst = q ∧ src = p then [m] else []) ++
        (w.consume src dst rest).chan p q := by
      by_cases hpq : dst = q ∧ src = p
      · obtain ⟨rfl, rfl⟩ := hpq
        simp [World.consume, hc]
      · have hqp : ¬ (p = src ∧ q = dst) := fun hx => hpq ⟨hx.2.symm, hx.1.symm⟩
        simp [World.consume, hpq, hqp]
    simp only [Protocol.hear, World.react, sent_cons, got_cons, Call.sentTo, Call.gotFrom,
      World.consume_past, ih, hpop, List.append_assoc, eq_comm]
  · intro w r env _ ih _ _
    simp only [Protocol.turn, World.react, sent_cons, got_cons, Call.sentTo, Call.gotFrom, ih,
      List.append_nil, List.append_assoc, eq_comm]

/-- Conservation of questions and answers. If every call of `q` answers `p`
exactly what it hears `p` ask, then the questions `p` has put to `q` are, in
order, those whose answer `p` has handled, those whose answer is on its way and
those still on their way to `q`. -/
theorem asked_eq_answered {τ : Type*} {w : World ι σ μ} (h : P.Run ok w) (p q : ι)
    (ask ans : μ → Option τ)
    (hans : ∀ c ∈ w.past, (c.sentTo q p).filterMap ans = (c.gotFrom p q).filterMap ask) :
    (sent w.past p q).filterMap ask =
      (got w.past q p).filterMap ans ++ (w.chan q p).filterMap ans ++
        (w.chan p q).filterMap ask := by
  have hreply : (sent w.past q p).filterMap ans = (got w.past p q).filterMap ask := by
    simp only [sent, got, List.filterMap_flatMap]
    exact List.flatMap_congr (fun c hc => hans c (List.mem_reverse.mp hc))
  rw [sent_eq_got_append_chan h p q, List.filterMap_append, ← hreply,
    sent_eq_got_append_chan h q p, List.filterMap_append]

end History

end FifoNetwork
