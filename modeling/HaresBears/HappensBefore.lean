import HaresBears.FifoNetwork

/-!
Happens-before over the runs of a FIFO network, and the clock condition. The
order is defined from the sequence of receptions and sends alone, with no
reference to clocks; one packet is one send, however many processes it is
addressed to. Every network whose calls keep Lamport's two rules stamps its
sends in this order.
-/
namespace FifoNetwork

inductive Act (ι μ : Type*) where
  | recv (p src : ι) (m : μ)
  | send (p : ι) (pkt : Packet ι μ)

namespace Act

variable {ι μ : Type*}

def proc : Act ι μ → ι
  | .recv p _ _ => p
  | .send p _ => p

def IsSend : Act ι μ → Prop
  | .recv .. => False
  | .send .. => True

variable [DecidableEq ι]

def sentTo (p q : ι) : Act ι μ → Option μ
  | .recv .. => none
  | .send r pkt => if r = p ∧ q ∈ pkt.dests then some pkt.msg else none

def gotFrom (p q : ι) : Act ι μ → Option μ
  | .recv r src m => if r = q ∧ src = p then some m else none
  | .send .. => none

end Act

variable {ι σ μ ε : Type*}

def Call.acts (c : Call ι σ μ) : List (Act ι μ) :=
  (match c.heard with
    | some (src, m) => [.recv c.proc src m]
    | none => []) ++ c.out.map (.send c.proc)

def acts (past : List (Call ι σ μ)) : List (Act ι μ) := past.reverse.flatMap Call.acts

@[simp] theorem acts_cons (c : Call ι σ μ) (past : List (Call ι σ μ)) :
    acts (c :: past) = acts past ++ c.acts := by
  simp [acts]

/-- The least transitive order that contains the order of each process and puts
the k-th send from `p` to `q` before the k-th reception of `q` from `p`. -/
inductive HappensBefore [DecidableEq ι] (as : List (Act ι μ)) : ℕ → ℕ → Prop
  | program {i j : ℕ} {a b : Act ι μ} : i < j → as[i]? = some a → as[j]? = some b →
      a.proc = b.proc → HappensBefore as i j
  | message {i j : ℕ} {p q : ι} {pkt : Packet ι μ} {m : μ} :
      as[i]? = some (.send p pkt) → as[j]? = some (.recv q p m) → q ∈ pkt.dests →
      ((as.take i).filterMap (Act.sentTo p q)).length =
        ((as.take j).filterMap (Act.gotFrom p q)).length →
      HappensBefore as i j
  | trans {i j k : ℕ} : HappensBefore as i j → HappensBefore as j k → HappensBefore as i k

private theorem getElem?_filterMap_take {α β : Type*} (f : α → Option β) {l : List α} {i : ℕ}
    {a : α} {b : β} (ha : l[i]? = some a) (hb : f a = some b) :
    (l.filterMap f)[((l.take i).filterMap f).length]? = some b := by
  obtain ⟨hi, rfl⟩ := List.getElem?_eq_some_iff.mp ha
  have hsplit : l = l.take i ++ l[i] :: l.drop (i + 1) := by simp
  have hmap := congrArg (List.filterMap f) hsplit
  rw [List.filterMap_append, List.filterMap_cons_some hb] at hmap
  rw [hmap, List.getElem?_append_right (Nat.le_refl _), Nat.sub_self]
  rfl

section Fifo

variable [DecidableEq ι]

theorem Call.acts_sentTo (c : Call ι σ μ) (p q : ι) :
    c.acts.filterMap (Act.sentTo p q) = c.sentTo p q := by
  have hsends : (c.out.map (Act.send c.proc)).filterMap (Act.sentTo p q) = c.sentTo p q := by
    unfold Call.sentTo
    induction c.out with
    | nil => simp
    | cons pkt out ih =>
      by_cases hp : c.proc = p
      · by_cases hq : q ∈ pkt.dests <;>
          simp_all [addressed_cons, Act.sentTo]
      · simp_all [Act.sentTo]
  unfold Call.acts
  rw [List.filterMap_append, hsends]
  cases c.heard <;> simp [Act.sentTo]

theorem Call.acts_gotFrom (c : Call ι σ μ) (p q : ι) :
    c.acts.filterMap (Act.gotFrom p q) = c.gotFrom p q := by
  have hsends : (c.out.map (Act.send c.proc)).filterMap (Act.gotFrom p q) = [] := by
    simp [List.filterMap_eq_nil_iff, Act.gotFrom]
  unfold Call.acts Call.gotFrom
  rw [List.filterMap_append, hsends, List.append_nil]
  cases c.heard with
  | none => rfl
  | some x => by_cases hx : c.proc = q ∧ x.1 = p <;> simp [Act.gotFrom, hx]

theorem acts_sent (past : List (Call ι σ μ)) (p q : ι) :
    (acts past).filterMap (Act.sentTo p q) = sent past p q := by
  simp only [acts, sent, List.filterMap_flatMap, Call.acts_sentTo]

theorem acts_got (past : List (Call ι σ μ)) (p q : ι) :
    (acts past).filterMap (Act.gotFrom p q) = got past p q := by
  simp only [acts, got, List.filterMap_flatMap, Call.acts_gotFrom]

variable {P : Protocol ι σ μ ε} [DecidablePred P.live]
variable {ok : World ι σ μ → Label ι ε → World ι σ μ → Prop}

/-- Matching by number is matching by content: the reception that the order puts
after a send handles the very message of that send. -/
theorem matched_message {w : World ι σ μ} (h : P.Run ok w) {i j : ℕ} {p q : ι}
    {pkt : Packet ι μ} {m : μ} (hi : (acts w.past)[i]? = some (.send p pkt))
    (hj : (acts w.past)[j]? = some (.recv q p m)) (hq : q ∈ pkt.dests)
    (hcount : (((acts w.past).take i).filterMap (Act.sentTo p q)).length =
      (((acts w.past).take j).filterMap (Act.gotFrom p q)).length) :
    m = pkt.msg := by
  have hs := getElem?_filterMap_take (Act.sentTo p q) hi
    (show _ = some pkt.msg by simp [Act.sentTo, hq])
  have hg := getElem?_filterMap_take (Act.gotFrom p q) hj
    (show _ = some m by simp [Act.gotFrom])
  rw [acts_sent, sent_eq_got_append_chan h, hcount] at hs
  rw [acts_got] at hg
  obtain ⟨hlt, -⟩ := List.getElem?_eq_some_iff.mp hg
  rw [List.getElem?_append_left hlt, hg] at hs
  exact Option.some.inj hs

end Fifo

/-- Lamport's rules for one call, with `clock` the clock of a state and `ts` the
timestamp of a message: sends carry fresh increasing values of the clock, and a
reception moves the clock past the message. -/
structure Disciplined (clock : σ → ℕ) (ts : μ → ℕ) (c : Call ι σ μ) : Prop where
  mono : clock c.before ≤ clock c.after
  sorted : c.out.Pairwise (fun x y => ts x.msg < ts y.msg)
  fresh : ∀ pkt ∈ c.out, clock c.before < ts pkt.msg
  current : ∀ pkt ∈ c.out, ts pkt.msg ≤ clock c.after
  heard : ∀ src m, c.heard = some (src, m) → clock c.before < clock c.after ∧ ts m < clock c.after
  answer : ∀ src m, c.heard = some (src, m) → ∀ pkt ∈ c.out, ts m < ts pkt.msg

section ClockCondition

variable (clock : σ → ℕ) (ts : μ → ℕ)

/-- A send is stamped with its timestamp, a reception with the value to which
Lamport's rule moves the clock. -/
def Call.stamps (c : Call ι σ μ) : List (Act ι μ × ℕ) :=
  (match c.heard with
    | some (src, m) => [(.recv c.proc src m, max (clock c.before) (ts m) + 1)]
    | none => []) ++ c.out.map (fun pkt => (.send c.proc pkt, ts pkt.msg))

def stamps (past : List (Call ι σ μ)) : List (Act ι μ × ℕ) :=
  past.reverse.flatMap (Call.stamps clock ts)

variable {clock ts}

@[simp] theorem stamps_cons (c : Call ι σ μ) (past : List (Call ι σ μ)) :
    stamps clock ts (c :: past) = stamps clock ts past ++ c.stamps clock ts := by
  simp [stamps]

theorem stamps_acts (clock : σ → ℕ) (ts : μ → ℕ) (past : List (Call ι σ μ)) :
    (stamps clock ts past).map Prod.fst = acts past := by
  induction past with
  | nil => rfl
  | cons c past ih =>
    rw [stamps_cons, acts_cons, List.map_append, ih, Call.stamps, Call.acts]
    cases c.heard <;> simp [Function.comp_def]

def Ordered (x y : Act ι μ × ℕ) : Prop :=
  x.1.proc = y.1.proc → x.2 ≤ y.2 ∧ (x.1.IsSend → x.2 < y.2)

theorem mem_call_stamps {c : Call ι σ μ} {x : Act ι μ × ℕ} :
    x ∈ c.stamps clock ts ↔
      (∃ src m, c.heard = some (src, m) ∧
        x = (.recv c.proc src m, max (clock c.before) (ts m) + 1)) ∨
      ∃ pkt ∈ c.out, x = (.send c.proc pkt, ts pkt.msg) := by
  unfold Call.stamps
  cases c.heard with
  | none => simp [eq_comm]
  | some y =>
    obtain ⟨src, m⟩ := y
    simp [eq_comm]

theorem call_stamps_bounds {c : Call ι σ μ} (hc : Disciplined clock ts c) {x : Act ι μ × ℕ}
    (hx : x ∈ c.stamps clock ts) :
    x.1.proc = c.proc ∧ clock c.before < x.2 ∧ x.2 ≤ clock c.after := by
  rcases mem_call_stamps.mp hx with ⟨src, m, hm, rfl⟩ | ⟨pkt, hp, rfl⟩
  · have h := hc.heard src m hm
    refine ⟨rfl, ?_, ?_⟩ <;> dsimp only <;> omega
  · exact ⟨rfl, hc.fresh pkt hp, hc.current pkt hp⟩

theorem call_stamps_ordered {c : Call ι σ μ} (hc : Disciplined clock ts c) :
    (c.stamps clock ts).Pairwise Ordered := by
  unfold Call.stamps
  have hsends : (c.out.map (fun pkt => ((Act.send c.proc pkt : Act ι μ), ts pkt.msg))).Pairwise
      Ordered := by
    rw [List.pairwise_map]
    exact hc.sorted.imp (fun hlt _ => ⟨Nat.le_of_lt hlt, fun _ => hlt⟩)
  cases hh : c.heard with
  | none => simpa using hsends
  | some y =>
    obtain ⟨src, m⟩ := y
    refine List.pairwise_append.mpr ⟨List.pairwise_singleton .., hsends, ?_⟩
    intro x hx z hz
    obtain ⟨pkt, hp, rfl⟩ := List.mem_map.mp hz
    obtain rfl := List.mem_singleton.mp hx
    have h1 := hc.fresh pkt hp
    have h2 := hc.answer src m hh pkt hp
    intro _
    refine ⟨?_, fun hs => hs.elim⟩
    dsimp only
    omega

private theorem stamp_at (clock : σ → ℕ) (ts : μ → ℕ) {past : List (Call ι σ μ)} {i : ℕ}
    {a : Act ι μ} (hi : (acts past)[i]? = some a) :
    ∃ k, (stamps clock ts past)[i]? = some (a, k) := by
  rw [← stamps_acts clock ts, List.getElem?_map] at hi
  obtain ⟨⟨b, k⟩, hb, rfl⟩ := Option.map_eq_some_iff.mp hi
  exact ⟨k, hb⟩

/-- A send is stamped with its timestamp, a reception above that of its message. -/
private theorem stamp_value {past : List (Call ι σ μ)} {a : Act ι μ} {k : ℕ}
    (h : (a, k) ∈ stamps clock ts past) :
    (∀ p pkt, a = .send p pkt → k = ts pkt.msg) ∧ (∀ p src m, a = .recv p src m → ts m < k) := by
  obtain ⟨c, -, hc⟩ := List.mem_flatMap.mp h
  rcases mem_call_stamps.mp hc with ⟨src, m, -, heq⟩ | ⟨pkt, -, heq⟩
  · obtain ⟨rfl, rfl⟩ := Prod.mk.inj heq
    refine ⟨fun _ _ hx => (nomatch hx), fun _ _ _ hx => ?_⟩
    obtain ⟨-, -, rfl⟩ := Act.recv.inj hx
    omega
  · obtain ⟨rfl, rfl⟩ := Prod.mk.inj heq
    refine ⟨fun _ _ hx => ?_, fun _ _ _ hx => (nomatch hx)⟩
    obtain ⟨-, rfl⟩ := Act.send.inj hx
    rfl

variable [DecidableEq ι] {P : Protocol ι σ μ ε} [DecidablePred P.live]
variable {ok : World ι σ μ → Label ι ε → World ι σ μ → Prop}

private theorem stamps_react {w w₀ : World ι σ μ} {p : ι} {heard : Option (ι × μ)}
    {r : σ × List (Packet ι μ)} (hnode : w.node = w₀.node) (hpast : w.past = w₀.past)
    (hd : ∀ c ∈ (w.react p heard r).past, Disciplined clock ts c)
    (ih : (stamps clock ts w₀.past).Pairwise Ordered ∧
      ∀ x ∈ stamps clock ts w₀.past, x.2 ≤ clock (w₀.node x.1.proc)) :
    (stamps clock ts (w.react p heard r).past).Pairwise Ordered ∧
      ∀ x ∈ stamps clock ts (w.react p heard r).past,
        x.2 ≤ clock ((w.react p heard r).node x.1.proc) := by
  have hc := hd _ (List.mem_cons_self ..)
  have hnew := fun x hx => call_stamps_bounds hc (x := x) hx
  simp only [World.react, stamps_cons, hpast, hnode] at hc hnew ⊢
  constructor
  · refine List.pairwise_append.mpr ⟨ih.1, call_stamps_ordered hc, ?_⟩
    intro x hx y hy hproc
    have hold := ih.2 x hx
    obtain ⟨hy1, hy2, -⟩ := hnew y hy
    rw [hproc, hy1] at hold
    exact ⟨by omega, fun _ => by omega⟩
  · intro x hx
    rcases List.mem_append.mp hx with hx | hx
    · have hold := ih.2 x hx
      by_cases hp : x.1.proc = p
      · have hmono := hc.mono
        rw [hp] at hold ⊢
        rw [Function.update_self]
        exact Nat.le_trans hold hmono
      · rwa [Function.update_of_ne hp]
    · obtain ⟨hx1, -, hx2⟩ := hnew x hx
      rwa [hx1, Function.update_self]

/-- The stamps of one process never decrease, a send is followed by larger
stamps only, and the clock of the process has reached all of them. -/
theorem stamps_ordered {w : World ι σ μ} (h : P.Run ok w)
    (hd : ∀ c ∈ w.past, Disciplined clock ts c) :
    (stamps clock ts w.past).Pairwise Ordered ∧
      ∀ x ∈ stamps clock ts w.past, x.2 ≤ clock (w.node x.1.proc) := by
  refine Protocol.Run.invariant (I := fun w => (∀ c ∈ w.past, Disciplined clock ts c) →
    (stamps clock ts w.past).Pairwise Ordered ∧
      ∀ x ∈ stamps clock ts w.past, x.2 ≤ clock (w.node x.1.proc)) ?_ ?_ ?_ h hd
  · intro _
    exact ⟨List.Pairwise.nil, fun x hx => by simp [stamps, Protocol.initial] at hx⟩
  · intro w src dst env m rest _ ih _ _ hd
    exact stamps_react rfl rfl hd (ih (fun c hc => hd c (List.mem_cons_of_mem _ hc)))
  · intro w p env _ ih _ _ hd
    exact stamps_react rfl rfl hd (ih (fun c hc => hd c (List.mem_cons_of_mem _ hc)))

/-- Along happens-before stamps never decrease, and they increase after a send. -/
theorem stamps_of_happensBefore {w : World ι σ μ} (h : P.Run ok w)
    (hd : ∀ c ∈ w.past, Disciplined clock ts c) {i j : ℕ}
    (hb : HappensBefore (acts w.past) i j) :
    ∃ x y, (stamps clock ts w.past)[i]? = some x ∧ (stamps clock ts w.past)[j]? = some y ∧
      x.2 ≤ y.2 ∧ (x.1.IsSend → x.2 < y.2) := by
  induction hb with
  | @program i j a b hij hi hj hproc =>
    obtain ⟨k, hk⟩ := stamp_at clock ts hi
    obtain ⟨l, hl⟩ := stamp_at clock ts hj
    obtain ⟨hi', hxi⟩ := List.getElem?_eq_some_iff.mp hk
    obtain ⟨hj', hyj⟩ := List.getElem?_eq_some_iff.mp hl
    have hord := List.pairwise_iff_getElem.mp (stamps_ordered h hd).1 i j hi' hj' hij
    rw [hxi, hyj] at hord
    exact ⟨_, _, hk, hl, hord hproc⟩
  | @message i j p q pkt m hi hj hq hcount =>
    obtain ⟨k, hk⟩ := stamp_at clock ts hi
    obtain ⟨l, hl⟩ := stamp_at clock ts hj
    have hm : m = pkt.msg := matched_message h hi hj hq hcount
    have hsend : k = ts pkt.msg := (stamp_value (List.mem_of_getElem? hk)).1 p pkt rfl
    have hrecv : ts m < l := (stamp_value (List.mem_of_getElem? hl)).2 q p m rfl
    rw [hm] at hrecv
    exact ⟨_, _, hk, hl, by dsimp only; omega, fun _ => by dsimp only; omega⟩
  | trans _ _ ih1 ih2 =>
    obtain ⟨x, y, hx, hy, hle, hlt⟩ := ih1
    obtain ⟨y', z, hy', hz, hle', -⟩ := ih2
    obtain rfl := Option.some.inj (hy.symm.trans hy')
    exact ⟨x, z, hx, hz, Nat.le_trans hle hle', fun hs => Nat.lt_of_lt_of_le (hlt hs) hle'⟩

/-- The clock condition: a send that happens before another carries the smaller
timestamp. -/
theorem clock_condition {w : World ι σ μ} (h : P.Run ok w)
    (hd : ∀ c ∈ w.past, Disciplined clock ts c) {i j : ℕ} {p q : ι} {e f : Packet ι μ}
    (hb : HappensBefore (acts w.past) i j) (hi : (acts w.past)[i]? = some (.send p e))
    (hj : (acts w.past)[j]? = some (.send q f)) : ts e.msg < ts f.msg := by
  obtain ⟨x, y, hx, hy, -, hlt⟩ := stamps_of_happensBefore h hd hb
  obtain ⟨k, hk⟩ := stamp_at clock ts hi
  obtain ⟨l, hl⟩ := stamp_at clock ts hj
  obtain rfl := Option.some.inj (hx.symm.trans hk)
  obtain rfl := Option.some.inj (hy.symm.trans hl)
  have he : k = ts e.msg := (stamp_value (List.mem_of_getElem? hk)).1 p e rfl
  have hf : l = ts f.msg := (stamp_value (List.mem_of_getElem? hl)).1 q f rfl
  have := hlt trivial
  dsimp only at this
  omega

def sends (past : List (Call ι σ μ)) (p : ι) : List (Packet ι μ) :=
  past.reverse.flatMap (fun c => if c.proc = p then c.out else [])

theorem sends_cons (c : Call ι σ μ) (past : List (Call ι σ μ)) (p : ι) :
    sends (c :: past) p = sends past p ++ if c.proc = p then c.out else [] := by
  simp [sends]

theorem sent_eq_addressed (past : List (Call ι σ μ)) (p q : ι) :
    sent past p q = addressed q (sends past p) := by
  induction past with
  | nil => rfl
  | cons c past ih =>
    rw [sent_cons, sends_cons, addressed_append, ih, Call.sentTo]
    split <;> simp

/-- The packets a process ever sends have increasing timestamps, all within its
clock. -/
theorem sends_sorted {w : World ι σ μ} (h : P.Run ok w)
    (hd : ∀ c ∈ w.past, Disciplined clock ts c) (p : ι) :
    (sends w.past p).Pairwise (fun x y => ts x.msg < ts y.msg) ∧
      ∀ x ∈ sends w.past p, ts x.msg ≤ clock (w.node p) := by
  have hreact : ∀ (w w₀ : World ι σ μ) (q : ι) (heard : Option (ι × μ))
      (r : σ × List (Packet ι μ)), w.node = w₀.node → w.past = w₀.past →
      (∀ c ∈ (w.react q heard r).past, Disciplined clock ts c) →
      ((sends w₀.past p).Pairwise (fun x y => ts x.msg < ts y.msg) ∧
        ∀ x ∈ sends w₀.past p, ts x.msg ≤ clock (w₀.node p)) →
      (sends (w.react q heard r).past p).Pairwise (fun x y => ts x.msg < ts y.msg) ∧
        ∀ x ∈ sends (w.react q heard r).past p, ts x.msg ≤ clock ((w.react q heard r).node p) := by
    intro w w₀ q heard r hnode hpast hd ih
    have hc := hd _ List.mem_cons_self
    simp only [World.react, sends_cons, hpast, hnode] at hc ⊢
    by_cases hq : q = p
    · subst hq
      simp only [if_true, Function.update_self]
      constructor
      · refine List.pairwise_append.mpr ⟨ih.1, hc.sorted, ?_⟩
        intro x hx y hy
        exact Nat.lt_of_le_of_lt (ih.2 x hx) (hc.fresh y hy)
      · intro x hx
        rcases List.mem_append.mp hx with hx | hx
        · exact Nat.le_trans (ih.2 x hx) hc.mono
        · exact hc.current x hx
    · simpa only [hq, if_false, List.append_nil, Function.update_of_ne (Ne.symm hq)] using ih
  refine Protocol.Run.invariant (I := fun w => (∀ c ∈ w.past, Disciplined clock ts c) →
    (sends w.past p).Pairwise (fun x y => ts x.msg < ts y.msg) ∧
      ∀ x ∈ sends w.past p, ts x.msg ≤ clock (w.node p)) ?_ ?_ ?_ h hd
  · intro _
    exact ⟨List.Pairwise.nil, fun x hx => by simp [sends, Protocol.initial] at hx⟩
  · intro w src dst env m rest _ ih _ _ hd
    exact hreact _ _ _ _ _ rfl rfl hd (ih (fun c hc => hd c (List.mem_cons_of_mem _ hc)))
  · intro w q env _ ih _ _ hd
    exact hreact _ _ _ _ _ rfl rfl hd (ih (fun c hc => hd c (List.mem_cons_of_mem _ hc)))

theorem sent_sorted {w : World ι σ μ} (h : P.Run ok w)
    (hd : ∀ c ∈ w.past, Disciplined clock ts c) (p q : ι) :
    (sent w.past p q).Pairwise (fun x y => ts x < ts y) := by
  rw [sent_eq_addressed, addressed, List.pairwise_map]
  exact (sends_sorted h hd p).1.filter _

/-- The messages in a channel have increasing timestamps. -/
theorem chan_sorted {w : World ι σ μ} (h : P.Run ok w)
    (hd : ∀ c ∈ w.past, Disciplined clock ts c) (p q : ι) :
    (w.chan p q).Pairwise (fun x y => ts x < ts y) := by
  have hs := sent_sorted h hd p q
  rw [sent_eq_got_append_chan h p q] at hs
  exact (List.pairwise_append.mp hs).2.1

end ClockCondition

end FifoNetwork
