import HaresBears.FifoNetwork
import Mathlib.Algebra.BigOperators.Group.Finset.Piecewise
import Mathlib.Algebra.GroupWithZero.Nat
import Mathlib.Algebra.Order.BigOperators.Group.Finset

/-!
The load of a network: the total weight of the messages in flight, where the
weight of a message may depend on its receiver. A reaction adds what it sends and
takes away what it hears, so over a run the weight sent is the weight heard and
the load. If a measure falls with every delivery, deliveries alone end in silence.
A census counts the processes in a given kind of state.
-/
namespace FifoNetwork

variable {ι σ μ ε : Type*} [DecidableEq ι]

def World.Silent (w : World ι σ μ) : Prop := ∀ a b, w.chan a b = []

def World.Within (s : Finset ι) (w : World ι σ μ) : Prop :=
  ∀ a b, w.chan a b ≠ [] → a ∈ s ∧ b ∈ s

def World.load (s : Finset ι) (f : ι → μ → ℕ) (w : World ι σ μ) : ℕ :=
  ∑ a ∈ s, ∑ b ∈ s, ((w.chan a b).map (f b)).sum

def World.census (s : Finset ι) (U : σ → Prop) [DecidablePred U] (w : World ι σ μ) : ℕ :=
  (s.filter (fun p => U (w.node p))).card

def dispatched (s : Finset ι) (f : ι → μ → ℕ) (out : List (Packet ι μ)) : ℕ :=
  ∑ b ∈ s, ((addressed b out).map (f b)).sum

section Load

variable {s : Finset ι} {f : ι → μ → ℕ} {w : World ι σ μ} {src dst p : ι} {m : μ} {rest : List μ}

@[simp] theorem dispatched_nil : dispatched s f ([] : List (Packet ι μ)) = 0 := by
  simp [dispatched]

theorem dispatched_append (xs ys : List (Packet ι μ)) :
    dispatched s f (xs ++ ys) = dispatched s f xs + dispatched s f ys := by
  simp only [dispatched, addressed_append, List.map_append, List.sum_append,
    Finset.sum_add_distrib]

theorem dispatched_singleton (pkt : Packet ι μ) :
    dispatched s f [pkt] = ∑ b ∈ s with b ∈ pkt.dests, f b pkt.msg := by
  rw [dispatched, Finset.sum_filter]
  refine Finset.sum_congr rfl ?_
  intro b _
  rw [addressed_cons, addressed_nil, List.append_nil]
  split <;> simp

/-- A reaction adds to the load what it sends. -/
theorem World.load_react (hp : p ∈ s) (heard : Option (ι × μ)) (r : σ × List (Packet ι μ)) :
    (w.react p heard r).load s f = w.load s f + dispatched s f r.2 := by
  have hrow : ∀ a ∈ s, ∑ b ∈ s, (((w.react p heard r).chan a b).map (f b)).sum =
      ∑ b ∈ s, ((w.chan a b).map (f b)).sum + if a = p then dispatched s f r.2 else 0 := by
    intro a _
    simp only [World.react, List.map_append, List.sum_append, Finset.sum_add_distrib]
    split <;> simp [dispatched]
  rw [World.load, Finset.sum_congr rfl hrow, Finset.sum_add_distrib, Finset.sum_ite_eq', if_pos hp]
  rfl

/-- Taking a message out of its channel takes its weight from the load. -/
theorem World.load_consume (hsrc : src ∈ s) (hdst : dst ∈ s)
    (hchan : w.chan src dst = m :: rest) :
    (w.consume src dst rest).load s f + f dst m = w.load s f := by
  have hcell : ∀ a b, ((w.chan a b).map (f b)).sum =
      (((w.consume src dst rest).chan a b).map (f b)).sum +
        if a = src then (if b = dst then f dst m else 0) else 0 := by
    intro a b
    simp only [World.consume]
    by_cases ha : a = src
    · by_cases hb : b = dst
      · rw [ha, hb, hchan]
        simp only [and_self, if_true, List.map_cons, List.sum_cons]
        omega
      · simp [hb]
    · simp [ha]
  have hrow : ∀ a ∈ s, ∑ b ∈ s, ((w.chan a b).map (f b)).sum =
      ∑ b ∈ s, (((w.consume src dst rest).chan a b).map (f b)).sum +
        if a = src then f dst m else 0 := by
    intro a _
    rw [Finset.sum_congr rfl (fun b _ => hcell a b), Finset.sum_add_distrib]
    by_cases ha : a = src
    · simp [ha, hdst]
    · simp [ha]
  rw [World.load, World.load, Finset.sum_congr rfl hrow, Finset.sum_add_distrib,
    Finset.sum_ite_eq', if_pos hsrc]

omit [DecidableEq ι] in
theorem World.Silent.load (h : w.Silent) : w.load s f = 0 := by
  simp [World.load, h _ _]

/-- A reaction moves one process in the census. -/
theorem World.census_react {U : σ → Prop} [DecidablePred U] (hp : p ∈ s)
    (heard : Option (ι × μ)) (r : σ × List (Packet ι μ)) :
    (w.react p heard r).census s U + (if U (w.node p) then 1 else 0) =
      w.census s U + if U r.1 then 1 else 0 := by
  have hothers : ∀ q ∈ s.erase p, (if U ((w.react p heard r).node q) then 1 else 0) =
      if U (w.node q) then 1 else 0 := by
    intro q hq
    rw [World.react_node_ne _ _ _ (Finset.ne_of_mem_erase hq)]
  rw [World.census, World.census, Finset.card_filter, Finset.card_filter,
    ← Finset.add_sum_erase s _ hp, ← Finset.add_sum_erase s _ hp, World.react_node_self,
    Finset.sum_congr rfl hothers]
  omega

variable {P : Protocol ι σ μ ε}

theorem Protocol.hear_past (env : ε) : (P.hear w src dst env m rest).past =
    ⟨dst, some (src, m), w.node dst, (P.onMsg dst (w.node dst) env src m).1,
      (P.onMsg dst (w.node dst) env src m).2⟩ :: w.past := rfl

theorem Protocol.turn_past (env : ε) : (P.turn w p env).past =
    ⟨p, none, w.node p, (P.onPoll p (w.node p) env).1, (P.onPoll p (w.node p) env).2⟩ ::
      w.past := rfl

theorem Protocol.load_hear (hsrc : src ∈ s) (hdst : dst ∈ s)
    (hchan : w.chan src dst = m :: rest) (env : ε) :
    (P.hear w src dst env m rest).load s f + f dst m =
      w.load s f + dispatched s f (P.onMsg dst (w.node dst) env src m).2 := by
  have hconsume := World.load_consume (f := f) hsrc hdst hchan
  rw [Protocol.hear, World.load_react hdst]
  omega

theorem Protocol.load_turn (hp : p ∈ s) (env : ε) :
    (P.turn w p env).load s f = w.load s f + dispatched s f (P.onPoll p (w.node p) env).2 :=
  World.load_react hp ..

theorem Protocol.census_hear {U : σ → Prop} [DecidablePred U] (hdst : dst ∈ s) (env : ε) :
    (P.hear w src dst env m rest).census s U + (if U (w.node dst) then 1 else 0) =
      w.census s U + if U (P.onMsg dst (w.node dst) env src m).1 then 1 else 0 :=
  World.census_react (w := w.consume src dst rest) hdst ..

theorem Protocol.census_turn {U : σ → Prop} [DecidablePred U] (hp : p ∈ s) (env : ε) :
    (P.turn w p env).census s U + (if U (w.node p) then 1 else 0) =
      w.census s U + if U (P.onPoll p (w.node p) env).1 then 1 else 0 :=
  World.census_react hp ..

end Load

section Conservation

def sentWeight (s : Finset ι) (f : ι → μ → ℕ) (past : List (Call ι σ μ)) : ℕ :=
  (past.map (fun c => dispatched s f c.out)).sum

def heardWeight (f : ι → μ → ℕ) (past : List (Call ι σ μ)) : ℕ :=
  (past.map (fun c => c.heard.elim 0 (fun x => f c.proc x.2))).sum

variable {P : Protocol ι σ μ ε} [DecidablePred P.live] {s : Finset ι} {w : World ι σ μ}
variable {ok : World ι σ μ → Label ι ε → World ι σ μ → Prop}

/-- Conservation: what has been sent has been heard or is in flight. -/
theorem sentWeight_eq (f : ι → μ → ℕ) (hlive : ∀ p, P.live p → p ∈ s)
    (hwithin : ∀ w, P.Run ok w → w.Within s) (h : P.Run ok w) :
    sentWeight s f w.past = heardWeight f w.past + w.load s f := by
  refine Protocol.Run.invariant
    (I := fun w => sentWeight s f w.past = heardWeight f w.past + w.load s f) ?_ ?_ ?_ h
  · simp [sentWeight, heardWeight, World.load, Protocol.initial]
  · intro w src dst env m rest hr ih hchan _
    obtain ⟨hsrc, hdst⟩ := hwithin w hr src dst (by simp [hchan])
    have hload := Protocol.load_hear (P := P) (f := f) hsrc hdst hchan env
    simp only [sentWeight, heardWeight, Protocol.hear_past, List.map_cons, List.sum_cons,
      Option.elim] at ih ⊢
    omega
  · intro w p env _ ih hp _
    have hload := Protocol.load_turn (P := P) (f := f) (w := w) (hlive p hp) env
    simp only [sentWeight, heardWeight, Protocol.turn_past, List.map_cons, List.sum_cons,
      Option.elim] at ih ⊢
    omega

end Conservation

section Drain

variable (P : Protocol ι σ μ ε) (ok : World ι σ μ → Label ι ε → World ι σ μ → Prop)

inductive Protocol.Drains : ℕ → World ι σ μ → World ι σ μ → Prop
  | refl (w : World ι σ μ) : Drains 0 w w
  | step {n : ℕ} {w w' : World ι σ μ} {src dst : ι} {env : ε} {m : μ} {rest : List μ} :
      w.chan src dst = m :: rest → ok w (.deliver src dst env) (P.hear w src dst env m rest) →
      Drains n (P.hear w src dst env m rest) w' → Drains (n + 1) w w'

/-- Every delivery that meets `ok` keeps `I` and brings the measure `M` down. -/
structure Draining (I : World ι σ μ → Prop) (M : World ι σ μ → ℕ) : Prop where
  keep : ∀ w src dst env m rest, I w → w.chan src dst = m :: rest →
    ok w (.deliver src dst env) (P.hear w src dst env m rest) → I (P.hear w src dst env m rest)
  drop : ∀ w src dst env m rest, I w → w.chan src dst = m :: rest →
    ok w (.deliver src dst env) (P.hear w src dst env m rest) →
    M (P.hear w src dst env m rest) < M w

variable {P ok} {I : World ι σ μ → Prop} {M : World ι σ μ → ℕ} {w w' : World ι σ μ} {n : ℕ}

theorem Draining.bound (hd : Draining P ok I M) (h : P.Drains ok n w w') (hI : I w) :
    I w' ∧ n + M w' ≤ M w := by
  induction h with
  | refl w => exact ⟨hI, by omega⟩
  | step hchan hok _ ih =>
    obtain ⟨hI', hle⟩ := ih (hd.keep _ _ _ _ _ _ hI hchan hok)
    have hlt := hd.drop _ _ _ _ _ _ hI hchan hok
    exact ⟨hI', by omega⟩

/-- If a network that is not silent always allows a delivery, deliveries can go on until
it is. -/
theorem Draining.exists_silent (hd : Draining P ok I M)
    (hstep : ∀ w, I w → ¬ w.Silent → ∃ src dst env m rest, w.chan src dst = m :: rest ∧
      ok w (.deliver src dst env) (P.hear w src dst env m rest)) (hI : I w) :
    ∃ n w', P.Drains ok n w w' ∧ w'.Silent := by
  induction hM : M w using Nat.strong_induction_on generalizing w with
  | _ k ih =>
    by_cases hs : w.Silent
    · exact ⟨0, w, .refl w, hs⟩
    · obtain ⟨src, dst, env, m, rest, hchan, hok⟩ := hstep w hI hs
      have hlt := hd.drop w src dst env m rest hI hchan hok
      obtain ⟨n, w', hdrains, hsilent⟩ :=
        ih _ (hM ▸ hlt) (hd.keep w src dst env m rest hI hchan hok) rfl
      exact ⟨n + 1, w', .step hchan hok hdrains, hsilent⟩

omit [DecidableEq ι] in
/-- A network that is not silent has a channel that is not empty. -/
theorem World.exists_chan (h : ¬ w.Silent) :
    ∃ src dst m rest, w.chan src dst = m :: rest := by
  simp only [World.Silent, not_forall] at h
  obtain ⟨src, dst, hne⟩ := h
  exact ⟨src, dst, List.exists_cons_of_ne_nil hne⟩

end Drain

section Locality

variable {P : Protocol ι σ μ ε} {w : World ι σ μ} {src dst p a b : ι} {env : ε} {m x : μ}
variable {rest : List μ} {heard : Option (ι × μ)} {r : σ × List (Packet ι μ)}
variable {I : ι → σ → Prop} {J : ι → ι → μ → Prop}

theorem World.mem_chan_react (hx : x ∈ (w.react p heard r).chan a b) :
    x ∈ w.chan a b ∨ a = p ∧ x ∈ addressed b r.2 := by
  rcases List.mem_append.mp hx with hold | hnew
  · exact Or.inl hold
  · right
    split at hnew
    · exact ⟨‹_›, hnew⟩
    · cases hnew

theorem World.mem_chan_consume (hchan : w.chan src dst = m :: rest)
    (hx : x ∈ (w.consume src dst rest).chan a b) : x ∈ w.chan a b := by
  unfold World.consume at hx
  dsimp only at hx
  split at hx
  · rename_i hab
    rw [hab.1, hab.2, hchan]
    exact List.mem_cons_of_mem _ hx
  · exact hx

/-- What is in a channel after a message is handed over was there before or has been
sent by its receiver. -/
theorem Protocol.mem_chan_hear (hchan : w.chan src dst = m :: rest)
    (hx : x ∈ (P.hear w src dst env m rest).chan a b) :
    x ∈ w.chan a b ∨ a = dst ∧ x ∈ addressed b (P.onMsg dst (w.node dst) env src m).2 :=
  (World.mem_chan_react hx).imp_left (World.mem_chan_consume hchan)

theorem Protocol.mem_chan_turn (hx : x ∈ (P.turn w p env).chan a b) :
    x ∈ w.chan a b ∨ a = p ∧ x ∈ addressed b (P.onPoll p (w.node p) env).2 :=
  World.mem_chan_react hx

/-- A property of every state is kept if the process that reacts keeps it. -/
theorem World.react_nodes (h : ∀ q, I q (w.node q)) (hp : I p r.1) :
    ∀ q, I q ((w.react p heard r).node q) := by
  rw [World.react, Function.forall_update_iff]
  exact ⟨hp, fun q _ => h q⟩

theorem Protocol.hear_nodes (h : ∀ q, I q (w.node q))
    (hdst : I dst (P.onMsg dst (w.node dst) env src m).1) :
    ∀ q, I q ((P.hear w src dst env m rest).node q) :=
  World.react_nodes (w := w.consume src dst rest) h hdst

theorem Protocol.turn_nodes (h : ∀ q, I q (w.node q)) (hp : I p (P.onPoll p (w.node p) env).1) :
    ∀ q, I q ((P.turn w p env).node q) :=
  World.react_nodes h hp

/-- A property of every message in flight is kept if it holds of what is sent. -/
theorem Protocol.hear_chans (hchan : w.chan src dst = m :: rest)
    (h : ∀ a b, ∀ x ∈ w.chan a b, J a b x)
    (hsent : ∀ b, ∀ x ∈ addressed b (P.onMsg dst (w.node dst) env src m).2, J dst b x) :
    ∀ a b, ∀ x ∈ (P.hear w src dst env m rest).chan a b, J a b x := by
  intro a b x hx
  rcases Protocol.mem_chan_hear hchan hx with hold | ⟨rfl, hnew⟩
  · exact h a b x hold
  · exact hsent b x hnew

theorem Protocol.turn_chans (h : ∀ a b, ∀ x ∈ w.chan a b, J a b x)
    (hsent : ∀ b, ∀ x ∈ addressed b (P.onPoll p (w.node p) env).2, J p b x) :
    ∀ a b, ∀ x ∈ (P.turn w p env).chan a b, J a b x := by
  intro a b x hx
  rcases Protocol.mem_chan_turn hx with hold | ⟨rfl, hnew⟩
  · exact h a b x hold
  · exact hsent b x hnew

end Locality

end FifoNetwork
