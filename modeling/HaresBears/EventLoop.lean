import HaresBears.EncodedChannels

/-!
The loop that runs each process. An iteration takes buffers from the channels and
decodes them until it stops to, handles the batch one message at a time, and polls.
What a reaction sends is written to the channels one message at a time before the
loop goes on. Since no reaction looks at a channel, every run of the loops is a run of
atomic reactions, and the other way round.
-/
namespace FifoNetwork

inductive Stage where
  | taking
  | handling
  deriving DecidableEq

/-- The processes, the buffers in the channels, the messages each process has taken
and not yet handled, with their senders, and those it has yet to write, with their
receivers. -/
structure LoopWorld (ι σ μ ν : Type*) where
  node : ι → σ
  chan : ι → ι → List ν
  batch : ι → List (ι × μ)
  outbox : ι → List (ι × μ)
  stage : ι → Stage

inductive Move (ι ε : Type*) where
  | take (src p : ι)
  | stop (p : ι)
  | handle (p : ι) (env : ε)
  | turn (p : ι) (env : ε)
  | write (p : ι)

variable {ι σ μ ν ε : Type*} [DecidableEq ι]

def letters (out : List (Packet ι μ)) : List (ι × μ) :=
  out.flatMap (fun pkt => pkt.dests.map (fun q => (q, pkt.msg)))

def lettersOf (q : ι) (l : List (ι × μ)) : List μ :=
  l.filterMap (fun x => if x.1 = q then some x.2 else none)

namespace Protocol

variable (P : Protocol ι σ μ ε) (enc : μ → ν) (dec : ν → Option μ)

def loopInitial : LoopWorld ι σ μ ν :=
  ⟨P.init, fun _ _ => [], fun _ => [], fun _ => [], fun _ => .taking⟩

/-- A buffer without a message is dropped as it is taken. -/
def loopNext [DecidablePred P.live] (v : LoopWorld ι σ μ ν) :
    Move ι ε → Option (LoopWorld ι σ μ ν)
  | .take src p =>
    if v.stage p = .taking ∧ v.outbox p = [] then
      match v.chan src p with
      | [] => none
      | buffer :: rest => some { v with
          chan := fun a b => if a = src ∧ b = p then rest else v.chan a b
          batch := Function.update v.batch p
            (v.batch p ++ (dec buffer).toList.map (fun m => (src, m))) }
    else none
  | .stop p =>
    if v.stage p = .taking ∧ v.outbox p = [] then
      some { v with stage := Function.update v.stage p .handling }
    else none
  | .handle p env =>
    if v.stage p = .handling ∧ v.outbox p = [] then
      match v.batch p with
      | [] => none
      | (src, m) :: rest =>
        let r := P.onMsg p (v.node p) env src m
        some { v with
          node := Function.update v.node p r.1
          batch := Function.update v.batch p rest
          outbox := Function.update v.outbox p (letters r.2) }
    else none
  | .turn p env =>
    if P.live p ∧ v.stage p = .handling ∧ v.outbox p = [] ∧ v.batch p = [] then
      let r := P.onPoll p (v.node p) env
      some { v with
        node := Function.update v.node p r.1
        outbox := Function.update v.outbox p (letters r.2)
        stage := Function.update v.stage p .taking }
    else none
  | .write p =>
    match v.outbox p with
    | [] => none
    | (q, m) :: rest => some { v with
        chan := fun a b => if a = p ∧ b = q then v.chan a b ++ [enc m] else v.chan a b
        outbox := Function.update v.outbox p rest }

inductive LoopReachable [DecidablePred P.live] : LoopWorld ι σ μ ν → Prop
  | init : LoopReachable P.loopInitial
  | step {v v' : LoopWorld ι σ μ ν} {l : Move ι ε} :
      LoopReachable v → P.loopNext enc dec v l = some v' → LoopReachable v'

end Protocol

section Letters

@[simp] theorem lettersOf_nil (q : ι) : lettersOf q ([] : List (ι × μ)) = [] := rfl

@[simp] theorem lettersOf_append (q : ι) (xs ys : List (ι × μ)) :
    lettersOf q (xs ++ ys) = lettersOf q xs ++ lettersOf q ys :=
  List.filterMap_append

theorem lettersOf_cons (q r : ι) (m : μ) (l : List (ι × μ)) :
    lettersOf q ((r, m) :: l) = (if r = q then [m] else []) ++ lettersOf q l := by
  unfold lettersOf
  by_cases h : r = q <;> simp [h]

theorem lettersOf_map (q src : ι) (ms : List μ) :
    lettersOf q (ms.map (fun m => (src, m))) = if src = q then ms else [] := by
  induction ms with
  | nil => simp
  | cons m ms ih =>
    rw [List.map_cons, lettersOf_cons, ih]
    split <;> rfl

theorem lettersOf_dests (q : ι) (m : μ) {dests : List ι} (h : dests.Nodup) :
    lettersOf q (dests.map (fun r => (r, m))) = if q ∈ dests then [m] else [] := by
  induction dests with
  | nil => rfl
  | cons r dests ih =>
    obtain ⟨hr, hdests⟩ := List.nodup_cons.mp h
    rw [List.map_cons, lettersOf_cons, ih hdests]
    by_cases hrq : r = q
    · subst hrq
      simp [hr]
    · simp [hrq, Ne.symm hrq]

/-- Messages that are sent to no process twice are written once to each receiver. -/
theorem lettersOf_letters {out : List (Packet ι μ)} (h : ∀ pkt ∈ out, pkt.dests.Nodup) (q : ι) :
    lettersOf q (letters out) = addressed q out := by
  induction out with
  | nil => rfl
  | cons pkt out ih =>
    rw [addressed_cons, ← ih (fun x hx => h x (List.mem_cons_of_mem _ hx)),
      ← lettersOf_dests q pkt.msg (h pkt List.mem_cons_self)]
    exact lettersOf_append q _ _

end Letters

/-- The loops carry the messages of `w`: a message in flight has been taken, or is in its
channel, or is still to be written. -/
structure Realizes (enc : μ → ν) (w : World ι σ μ) (v : LoopWorld ι σ μ ν) : Prop where
  node : v.node = w.node
  chan : ∀ a b, ∃ ms, v.chan a b = ms.map enc ∧
    w.chan a b = lettersOf a (v.batch b) ++ ms ++ lettersOf b (v.outbox a)

/-- What the loops rely on: every message in flight survives encoding and goes to a running
process, and no reaction sends a message twice to one process. -/
structure LoopReady (P : Protocol ι σ μ ε) [DecidablePred P.live] (enc : μ → ν)
    (dec : ν → Option μ) : Prop where
  survive : ∀ w, P.Reachable w → Survive enc dec w
  live : ∀ w, P.Reachable w → ∀ a b, w.chan a b ≠ [] → P.live b
  heard : ∀ p s env src m, ∀ pkt ∈ (P.onMsg p s env src m).2, pkt.dests.Nodup
  polled : ∀ p s env, ∀ pkt ∈ (P.onPoll p s env).2, pkt.dests.Nodup

section Soundness

variable {P : Protocol ι σ μ ε} [DecidablePred P.live] {enc : μ → ν} {dec : ν → Option μ}
variable {w : World ι σ μ} {v v' : LoopWorld ι σ μ ν} {src p q : ι} {m : μ} {buffer : ν}
variable {rest : List ν} {batch outbox : List (ι × μ)}

omit [DecidablePred P.live] in
theorem Realizes.initial : Realizes enc P.initial (P.loopInitial : LoopWorld ι σ μ ν) :=
  ⟨rfl, fun _ _ => ⟨[], rfl, rfl⟩⟩

/-- A message that is taken stays in flight. -/
theorem Realizes.take (h : Realizes enc w v) (hs : Survive enc dec w)
    (hchan : v.chan src p = buffer :: rest) :
    Realizes enc w { v with
      chan := fun a b => if a = src ∧ b = p then rest else v.chan a b
      batch := Function.update v.batch p
        (v.batch p ++ (dec buffer).toList.map (fun m => (src, m))) } := by
  refine ⟨h.node, fun a b => ?_⟩
  obtain ⟨ms, hv, hw⟩ := h.chan a b
  by_cases hb : b = p
  · subst hb
    simp only [Function.update_self, lettersOf_append, lettersOf_map, and_true]
    by_cases ha : a = src
    · subst ha
      rw [hchan] at hv
      obtain ⟨m, ms', rfl, rfl, rfl⟩ := List.map_eq_cons_iff.mp hv.symm
      refine ⟨ms', by simp, ?_⟩
      have hdec := hs a b m (by simp [hw])
      simp [hw, hdec]
    · exact ⟨ms, by simp [ha, hv], by simp [Ne.symm ha, hw]⟩
  · exact ⟨ms, by simp [hb, hv], by simp [Function.update_of_ne hb, hw]⟩

/-- Writing a message moves it from the outbox to its channel. -/
theorem Realizes.write (h : Realizes enc w v) (hout : v.outbox p = (q, m) :: outbox) :
    Realizes enc w { v with
      chan := fun a b => if a = p ∧ b = q then v.chan a b ++ [enc m] else v.chan a b
      outbox := Function.update v.outbox p outbox } := by
  refine ⟨h.node, fun a b => ?_⟩
  obtain ⟨ms, hv, hw⟩ := h.chan a b
  by_cases ha : a = p
  · subst ha
    rw [hout, lettersOf_cons] at hw
    simp only [Function.update_self, true_and]
    by_cases hb : b = q
    · subst hb
      exact ⟨ms ++ [m], by simp [hv], by simp [hw]⟩
    · exact ⟨ms, by simp [hb, hv], by simp [hw, Ne.symm hb]⟩
  · exact ⟨ms, by simp [ha, hv], by simp [Function.update_of_ne ha, hw]⟩

/-- The reaction of a process puts its messages into the outbox. -/
theorem Realizes.react (h : Realizes enc w v) (hout : v.outbox p = []) (heard : Option (ι × μ))
    {r : σ × List (Packet ι μ)} (hr : ∀ pkt ∈ r.2, pkt.dests.Nodup) :
    Realizes enc (w.react p heard r) { v with
      node := Function.update v.node p r.1
      outbox := Function.update v.outbox p (letters r.2) } := by
  refine ⟨by simp only [World.react, h.node], fun a b => ?_⟩
  obtain ⟨ms, hv, hw⟩ := h.chan a b
  refine ⟨ms, hv, ?_⟩
  simp only [World.react, hw]
  by_cases ha : a = p
  · subst ha
    simp [hout, lettersOf_letters hr]
  · simp [ha]

/-- The head of a batch is the head of its channel. -/
theorem Realizes.consume (h : Realizes enc w v) (hbatch : v.batch p = (src, m) :: batch) :
    ∃ ms, w.chan src p = m :: ms ∧
      Realizes enc (w.consume src p ms) { v with batch := Function.update v.batch p batch } := by
  obtain ⟨ms, hv, hw⟩ := h.chan src p
  rw [hbatch, lettersOf_cons, if_pos rfl] at hw
  refine ⟨_, hw, h.node, fun a b => ?_⟩
  by_cases hab : a = src ∧ b = p
  · obtain ⟨rfl, rfl⟩ := hab
    exact ⟨ms, hv, by simp [World.consume]⟩
  · obtain ⟨ms', hv', hw'⟩ := h.chan a b
    refine ⟨ms', hv', ?_⟩
    simp only [World.consume, if_neg hab, hw']
    by_cases hb : b = p
    · subst hb
      have ha : ¬ src = a := fun ha => hab ⟨ha.symm, rfl⟩
      simp [hbatch, lettersOf_cons, ha]
    · simp [hb]

/-- Everything a move can be. -/
theorem Protocol.loopNext_cases {l : Move ι ε} (h : P.loopNext enc dec v l = some v') :
    (∃ src p buffer rest, l = .take src p ∧ v.stage p = .taking ∧ v.outbox p = [] ∧
      v.chan src p = buffer :: rest ∧ v' = { v with
        chan := fun a b => if a = src ∧ b = p then rest else v.chan a b
        batch := Function.update v.batch p
          (v.batch p ++ (dec buffer).toList.map (fun m => (src, m))) }) ∨
    (∃ p, l = .stop p ∧ v.stage p = .taking ∧ v.outbox p = [] ∧
      v' = { v with stage := Function.update v.stage p .handling }) ∨
    (∃ p env src m batch, l = .handle p env ∧ v.stage p = .handling ∧ v.outbox p = [] ∧
      v.batch p = (src, m) :: batch ∧ v' = { v with
        node := Function.update v.node p (P.onMsg p (v.node p) env src m).1
        batch := Function.update v.batch p batch
        outbox := Function.update v.outbox p
          (letters (P.onMsg p (v.node p) env src m).2) }) ∨
    (∃ p env, l = .turn p env ∧ P.live p ∧ v.stage p = .handling ∧ v.outbox p = [] ∧
      v.batch p = [] ∧ v' = { v with
        node := Function.update v.node p (P.onPoll p (v.node p) env).1
        outbox := Function.update v.outbox p (letters (P.onPoll p (v.node p) env).2)
        stage := Function.update v.stage p .taking }) ∨
    (∃ p q m outbox, l = .write p ∧ v.outbox p = (q, m) :: outbox ∧ v' = { v with
        chan := fun a b => if a = p ∧ b = q then v.chan a b ++ [enc m] else v.chan a b
        outbox := Function.update v.outbox p outbox }) := by
  cases l with
  | take src p =>
    left
    simp only [Protocol.loopNext] at h
    split at h
    · rename_i hguard
      split at h
      · cases h
      · rename_i buffer rest hc
        exact ⟨src, p, buffer, rest, rfl, hguard.1, hguard.2, hc, (Option.some.inj h).symm⟩
    · cases h
  | stop p =>
    right; left
    simp only [Protocol.loopNext] at h
    split at h
    · rename_i hguard
      exact ⟨p, rfl, hguard.1, hguard.2, (Option.some.inj h).symm⟩
    · cases h
  | handle p env =>
    right; right; left
    simp only [Protocol.loopNext] at h
    split at h
    · rename_i hguard
      split at h
      · cases h
      · rename_i src m batch hb
        exact ⟨p, env, src, m, batch, rfl, hguard.1, hguard.2, hb, (Option.some.inj h).symm⟩
    · cases h
  | turn p env =>
    right; right; right; left
    simp only [Protocol.loopNext] at h
    split at h
    · rename_i hguard
      exact ⟨p, env, rfl, hguard.1, hguard.2.1, hguard.2.2.1, hguard.2.2.2,
        (Option.some.inj h).symm⟩
    · cases h
  | write p =>
    right; right; right; right
    simp only [Protocol.loopNext] at h
    split at h
    · cases h
    · rename_i q m outbox ho
      exact ⟨p, q, m, outbox, rfl, ho, (Option.some.inj h).symm⟩

/-- Every run of the loops is a run of atomic reactions. -/
theorem LoopReady.refines (hP : LoopReady P enc dec) (h : P.LoopReachable enc dec v) :
    ∃ w, P.Reachable w ∧ Realizes enc w v := by
  induction h with
  | init => exact ⟨P.initial, .init, Realizes.initial⟩
  | @step v v' l _ hn ih =>
    obtain ⟨w, hw, hr⟩ := ih
    rcases Protocol.loopNext_cases hn with ⟨src, p, buffer, rest, -, -, -, hc, rfl⟩ |
      ⟨p, -, -, -, rfl⟩ | ⟨p, env, src, m, batch, -, -, ho, hb, rfl⟩ |
      ⟨p, env, -, hp, -, ho, -, rfl⟩ | ⟨p, q, m, outbox, -, ho, rfl⟩
    · exact ⟨w, hw, hr.take (hP.survive w hw) hc⟩
    · exact ⟨w, hw, hr.node, hr.chan⟩
    · obtain ⟨ms, hchan, hcons⟩ := hr.consume hb
      refine ⟨_, hw.hear env hchan, ?_⟩
      rw [Protocol.hear, ← hr.node]
      exact hcons.react ho _ (hP.heard p (v.node p) env src m)
    · refine ⟨_, hw.turn env hp, ?_⟩
      rw [Protocol.turn, ← hr.node]
      have hreact := hr.react ho none (hP.polled p (v.node p) env)
      exact ⟨hreact.node, hreact.chan⟩
    · exact ⟨w, hw, hr.write ho⟩

end Soundness

structure Settled (enc : μ → ν) (w : World ι σ μ) (v : LoopWorld ι σ μ ν) : Prop where
  node : v.node = w.node
  chan : ∀ a b, v.chan a b = (w.chan a b).map enc
  batch : ∀ p, v.batch p = []
  outbox : ∀ p, v.outbox p = []
  stage : ∀ p, v.stage p = .taking

section Completeness

variable {P : Protocol ι σ μ ε} [DecidablePred P.live] {enc : μ → ν} {dec : ν → Option μ}
variable {w : World ι σ μ} {v : LoopWorld ι σ μ ν} {src p : ι} {m : μ} {rest : List μ} {idle : ε}

/-- A process can write all it has to write. -/
theorem exists_flushed (h : P.LoopReachable enc dec v) (p : ι) :
    ∃ v', P.LoopReachable enc dec v' ∧ v'.node = v.node ∧ v'.batch = v.batch ∧
      v'.stage = v.stage ∧ v'.outbox = Function.update v.outbox p [] ∧
      ∀ a b, v'.chan a b =
        v.chan a b ++ if a = p then (lettersOf b (v.outbox p)).map enc else [] := by
  induction ho : v.outbox p generalizing v with
  | nil =>
    refine ⟨v, h, rfl, rfl, rfl, ?_, by simp⟩
    rw [← ho, Function.update_eq_self]
  | cons x outbox ih =>
    obtain ⟨q, m⟩ := x
    have hwrite : P.LoopReachable enc dec { v with
        chan := fun a b => if a = p ∧ b = q then v.chan a b ++ [enc m] else v.chan a b
        outbox := Function.update v.outbox p outbox } := by
      refine .step (l := .write p) h ?_
      simp only [Protocol.loopNext, ho]
    obtain ⟨v', hv', hnode, hbatch, hstage, hout, hchan⟩ := ih hwrite (Function.update_self ..)
    refine ⟨v', hv', hnode, hbatch, hstage, ?_, fun a b => ?_⟩
    · rw [hout, Function.update_idem]
    · rw [hchan, lettersOf_cons]
      by_cases ha : a = p
      · by_cases hb : b = q
        · simp [ha, hb]
        · simp [ha, hb, Ne.symm hb]
      · simp [ha]

/-- One iteration of a loop that takes one message and finds nothing to do in its poll. -/
theorem Settled.hear (hP : LoopReady P enc dec) (hw : P.Reachable w) (hs : Settled enc w v)
    (hv : P.LoopReachable enc dec v) (hidle : ∀ p s, P.onPoll p s idle = (s, [])) (env : ε)
    (hchan : w.chan src p = m :: rest) :
    ∃ v', P.LoopReachable enc dec v' ∧ Settled enc (P.hear w src p env m rest) v' := by
  have hdec := hP.survive w hw src p m (by simp [hchan])
  have hlive := hP.live w hw src p (by simp [hchan])
  have hbuffers : v.chan src p = enc m :: rest.map enc := by rw [hs.chan, hchan, List.map_cons]
  have htake : P.LoopReachable enc dec { v with
      chan := fun a b => if a = src ∧ b = p then rest.map enc else v.chan a b
      batch := Function.update v.batch p [(src, m)] } := by
    refine .step (l := .take src p) hv ?_
    simp [Protocol.loopNext, hs.stage, hs.outbox, hs.batch, hbuffers, hdec]
  have hstop : P.LoopReachable enc dec { v with
      chan := fun a b => if a = src ∧ b = p then rest.map enc else v.chan a b
      batch := Function.update v.batch p [(src, m)]
      stage := Function.update v.stage p .handling } := by
    refine .step (l := .stop p) htake ?_
    simp [Protocol.loopNext, hs.stage, hs.outbox]
  have hhandle : P.LoopReachable enc dec { v with
      node := Function.update v.node p (P.onMsg p (v.node p) env src m).1
      chan := fun a b => if a = src ∧ b = p then rest.map enc else v.chan a b
      batch := Function.update v.batch p []
      outbox := Function.update v.outbox p (letters (P.onMsg p (v.node p) env src m).2)
      stage := Function.update v.stage p .handling } := by
    refine .step (l := .handle p env) hstop ?_
    simp [Protocol.loopNext, hs.outbox]
  obtain ⟨v', hv', hnode, hbatch, hstage, hout, hchan'⟩ := exists_flushed hhandle p
  refine ⟨{ v' with stage := Function.update v'.stage p .taking }, ?_, ?_⟩
  · refine .step (l := .turn p idle) hv' ?_
    simp [Protocol.loopNext, hlive, hstage, hout, hbatch, hidle, letters]
  · have hletters := lettersOf_letters (hP.heard p (w.node p) env src m)
    constructor
    · simp only [hnode, Protocol.hear, World.react, World.consume_node, hs.node]
    · intro a b
      simp only [hchan', Protocol.hear, World.react, World.consume, List.map_append,
        Function.update_self, hs.node, hletters, hs.chan]
      split <;> split <;> rfl
    · intro q
      by_cases hq : q = p <;> simp [hbatch, hq, hs.batch]
    · intro q
      by_cases hq : q = p <;> simp [hout, hq, hs.outbox]
    · intro q
      by_cases hq : q = p <;> simp [hstage, hq, hs.stage]

/-- One iteration of a loop that takes no message. -/
theorem Settled.turn (hP : LoopReady P enc dec) (hs : Settled enc w v)
    (hv : P.LoopReachable enc dec v) (env : ε) (hlive : P.live p) :
    ∃ v', P.LoopReachable enc dec v' ∧ Settled enc (P.turn w p env) v' := by
  have hstop : P.LoopReachable enc dec
      { v with stage := Function.update v.stage p .handling } := by
    refine .step (l := .stop p) hv ?_
    simp [Protocol.loopNext, hs.stage, hs.outbox]
  have hturn : P.LoopReachable enc dec { v with
      node := Function.update v.node p (P.onPoll p (v.node p) env).1
      outbox := Function.update v.outbox p (letters (P.onPoll p (v.node p) env).2)
      stage := Function.update v.stage p .taking } := by
    refine .step (l := .turn p env) hstop ?_
    simp [Protocol.loopNext, hlive, hs.outbox, hs.batch]
  obtain ⟨v', hv', hnode, hbatch, hstage, hout, hchan'⟩ := exists_flushed hturn p
  refine ⟨v', hv', ?_⟩
  have hletters := lettersOf_letters (hP.polled p (w.node p) env)
  constructor
  · simp only [hnode, Protocol.turn, World.react, hs.node]
  · intro a b
    simp only [hchan', Protocol.turn, World.react, List.map_append, Function.update_self, hs.node,
      hletters, hs.chan]
    split <;> rfl
  · intro q
    rw [hbatch, hs.batch]
  · intro q
    by_cases hq : q = p <;> simp [hout, hq, hs.outbox]
  · intro q
    by_cases hq : q = p <;> simp [hstage, hq, hs.stage]

/-- Every run of atomic reactions is a run of the loops, if a poll can do nothing. -/
theorem LoopReady.covers (hP : LoopReady P enc dec)
    (hidle : ∀ p s, P.onPoll p s idle = (s, [])) (hw : P.Reachable w) :
    ∃ v, P.LoopReachable enc dec v ∧ Settled enc w v := by
  induction hw with
  | init =>
    exact ⟨P.loopInitial, .init, rfl, fun _ _ => rfl, fun _ => rfl, fun _ => rfl, fun _ => rfl⟩
  | @step w w' l hr hn _ ih =>
    obtain ⟨v, hv, hs⟩ := ih
    rcases Protocol.next_cases hn with
      ⟨src, dst, env, m, rest, rfl, hc, rfl⟩ | ⟨p, env, rfl, hp, rfl⟩
    · exact hs.hear hP hr hv hidle env hc
    · exact hs.turn hP hv env hp

end Completeness

end FifoNetwork
