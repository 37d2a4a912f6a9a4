import HaresBears.FifoNetwork

/-!
The same processes over channels that carry encoded messages. A receiver decodes
what it takes from a channel and drops what it cannot decode. If every message in
flight survives encoding, the two systems move in lockstep.
-/
namespace FifoNetwork

variable {ι σ μ ν ε : Type*} [DecidableEq ι]

def Packet.encoded (enc : μ → ν) (pkt : Packet ι μ) : Packet ι ν := ⟨pkt.dests, enc pkt.msg⟩

def Protocol.encoded (P : Protocol ι σ μ ε) (enc : μ → ν) (dec : ν → Option μ) :
    Protocol ι σ ν ε where
  live := P.live
  init := P.init
  onMsg p s env src buffer :=
    match dec buffer with
    | some m => ((P.onMsg p s env src m).1, (P.onMsg p s env src m).2.map (Packet.encoded enc))
    | none => (s, [])
  onPoll p s env := ((P.onPoll p s env).1, (P.onPoll p s env).2.map (Packet.encoded enc))

instance (P : Protocol ι σ μ ε) [DecidablePred P.live] (enc : μ → ν) (dec : ν → Option μ) :
    DecidablePred (P.encoded enc dec).live :=
  inferInstanceAs (DecidablePred P.live)

structure Carried (enc : μ → ν) (w : World ι σ μ) (v : World ι σ ν) : Prop where
  node : v.node = w.node
  chan : ∀ a b, v.chan a b = (w.chan a b).map enc

variable {P : Protocol ι σ μ ε} {enc : μ → ν} {dec : ν → Option μ}
variable {w : World ι σ μ} {v : World ι σ ν}

theorem addressed_encoded (q : ι) (out : List (Packet ι μ)) :
    addressed q (out.map (Packet.encoded enc)) = (addressed q out).map enc := by
  induction out with
  | nil => rfl
  | cons pkt out ih =>
    rw [List.map_cons, addressed_cons, addressed_cons, ih, List.map_append]
    by_cases hq : q ∈ pkt.dests <;> simp [Packet.encoded, hq]

omit [DecidableEq ι] in
theorem Carried.initial : Carried enc P.initial (P.encoded enc dec).initial :=
  ⟨rfl, fun _ _ => rfl⟩

theorem Carried.react (h : Carried enc w v) (p : ι) (heard : Option (ι × μ))
    (heard' : Option (ι × ν)) (s : σ) (out : List (Packet ι μ)) :
    Carried enc (w.react p heard (s, out))
      (v.react p heard' (s, out.map (Packet.encoded enc))) where
  node := by simp only [World.react, h.node]
  chan a b := by
    simp only [World.react, h.chan, List.map_append]
    split
    · rw [addressed_encoded]
    · rfl

theorem Carried.consume (h : Carried enc w v) (src dst : ι) (rest : List μ) :
    Carried enc (w.consume src dst rest) (v.consume src dst (rest.map enc)) where
  node := h.node
  chan a b := by
    simp only [World.consume]
    split
    · rfl
    · exact h.chan a b

variable [DecidablePred P.live]

def Survive (enc : μ → ν) (dec : ν → Option μ) (w : World ι σ μ) : Prop :=
  ∀ a b, ∀ m ∈ w.chan a b, dec (enc m) = some m

/-- One step of both systems under the same label: neither is possible, or both are
and lead to corresponding worlds. -/
theorem Carried.next (h : Carried enc w v) (hs : Survive enc dec w) (l : Label ι ε) :
    Option.Rel (Carried enc) (P.next w l) ((P.encoded enc dec).next v l) := by
  cases l with
  | deliver src dst env =>
    cases hc : w.chan src dst with
    | nil =>
      have hv : v.chan src dst = [] := by rw [h.chan, hc, List.map_nil]
      simp only [Protocol.next, hc, hv]
      exact .none
    | cons m rest =>
      have hv : v.chan src dst = enc m :: rest.map enc := by rw [h.chan, hc, List.map_cons]
      have hdec := hs src dst m (by simp [hc])
      simp only [Protocol.next, hc, hv]
      refine .some ?_
      simp only [Protocol.hear, Protocol.encoded, hdec, h.node]
      exact (h.consume src dst rest).react ..
  | poll p env =>
    by_cases hp : P.live p
    · have hp' : (P.encoded enc dec).live p := hp
      simp only [Protocol.next, hp, hp', if_true]
      refine .some ?_
      simp only [Protocol.turn, Protocol.encoded, h.node]
      exact h.react ..
    · have hp' : ¬ (P.encoded enc dec).live p := hp
      simp only [Protocol.next, hp, hp', if_false]
      exact .none

private theorem rel_some_left {α β : Type*} {r : α → β → Prop} {a : α} {o : Option β}
    (h : Option.Rel r (some a) o) : ∃ b, o = some b ∧ r a b := by
  cases h with
  | some h => exact ⟨_, rfl, h⟩

private theorem rel_some_right {α β : Type*} {r : α → β → Prop} {o : Option α} {b : β}
    (h : Option.Rel r o (some b)) : ∃ a, o = some a ∧ r a b := by
  cases h with
  | some h => exact ⟨_, rfl, h⟩

private theorem rel_none_left {α β : Type*} {r : α → β → Prop} {o : Option β}
    (h : Option.Rel r (none : Option α) o) : o = none := by
  cases h with
  | none => rfl

/-- Lockstep: the same labels are possible in both systems and lead to corresponding
worlds. -/
theorem lockstep (hs : ∀ w, P.Reachable w → Survive enc dec w) (hw : P.Reachable w)
    (h : Carried enc w v) (ls : List (Label ι ε)) :
    Option.Rel (Carried enc) (P.exec (fun _ _ _ => True) w ls)
      ((P.encoded enc dec).exec (fun _ _ _ => True) v ls) := by
  induction ls generalizing w v with
  | nil => exact .some h
  | cons l ls ih =>
    have hnext := h.next (P := P) (hs w hw) l
    simp only [Protocol.exec, if_true]
    cases hn : P.next w l with
    | none =>
      rw [hn] at hnext
      rw [rel_none_left hnext]
      exact .none
    | some w' =>
      rw [hn] at hnext
      obtain ⟨v', hv, h'⟩ := rel_some_left hnext
      rw [hv]
      exact ih (.step hw hn trivial) h'

theorem Carried.forward (hs : ∀ w, P.Reachable w → Survive enc dec w) (hw : P.Reachable w) :
    ∃ v, (P.encoded enc dec).Reachable v ∧ Carried enc w v := by
  induction hw with
  | init => exact ⟨_, .init, Carried.initial⟩
  | @step w w' l hr hn _ ih =>
    obtain ⟨v, hv, h⟩ := ih
    have hnext := h.next (P := P) (hs w hr) l
    rw [hn] at hnext
    obtain ⟨v', hnv, h'⟩ := rel_some_left hnext
    exact ⟨v', .step hv hnv trivial, h'⟩

theorem Carried.backward (hs : ∀ w, P.Reachable w → Survive enc dec w)
    (hv : (P.encoded enc dec).Reachable v) : ∃ w, P.Reachable w ∧ Carried enc w v := by
  induction hv with
  | init => exact ⟨_, .init, Carried.initial⟩
  | @step v v' l hr hn _ ih =>
    obtain ⟨w, hw, h⟩ := ih
    have hnext := h.next (P := P) (hs w hw) l
    rw [hn] at hnext
    obtain ⟨w', hnw, h'⟩ := rel_some_right hnext
    exact ⟨w', .step hw hnw trivial, h'⟩

end FifoNetwork
