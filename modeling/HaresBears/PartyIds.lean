import HaresBears.ClockRules

/-!
Party ids. A process forms an id from a counter that starts at a multiple of the
offset and from its clock. Where the sum stays in the slice of the process between
that multiple and the next, and below the width of an id, no two starts share an
id; two hares that dance alone long enough leave it.
-/
namespace HaresBears

open FifoNetwork LamportQueueAlgorithm

def Message.startId : Message → Option UInt64
  | .partyStart m => some m.partyId
  | _ => none

def sentIds (out : Sends) : List UInt64 := out.filterMap (fun pkt => pkt.msg.startId)

def startIds (past : List Call) : List UInt64 := past.flatMap (fun c => sentIds c.out)

def InSlice (offset : ℕ) (p : Pid) (x : ℕ) : Prop :=
  p.toNat * offset ≤ x ∧ x < (p.toNat + 1) * offset ∧ x < 2 ^ 32

instance (offset : ℕ) (p : Pid) (x : ℕ) : Decidable (InSlice offset p x) :=
  inferInstanceAs (Decidable (p.toNat * offset ≤ x ∧ x < (p.toNat + 1) * offset ∧ x < 2 ^ 32))

/-- A step that moves the party counter of a process, which only a party start does,
finds counter and clock in the slice of the process. -/
def SlicedStart (cfg : Config) (w : World) (l : Label) (w' : World) : Prop :=
  match l with
  | .deliver _ dst _ => (algo w' dst).partyCounter ≠ (algo w dst).partyCounter →
      InSlice cfg.partyIdOffset.toNat dst
        ((algo w dst).partyCounter.toNat + time (w'.node dst))
  | .poll _ _ => True

instance (cfg : Config) : ∀ w l w', Decidable (SlicedStart cfg w l w')
  | w, .deliver _ dst _, w' => inferInstanceAs (Decidable (
      (algo w' dst).partyCounter ≠ (algo w dst).partyCounter →
      InSlice cfg.partyIdOffset.toNat dst
        ((algo w dst).partyCounter.toNat + time (w'.node dst))))
  | _, .poll _ _, _ => .isTrue trivial

def KeepsSlices (cfg : Config) (w : World) (l : Label) (w' : World) : Prop :=
  NoWrap w l w' ∧ SlicedStart cfg w l w'

instance (cfg : Config) (w : World) (l : Label) (w' : World) : Decidable (KeepsSlices cfg w l w') :=
  inferInstanceAs (Decidable (NoWrap w l w' ∧ SlicedStart cfg w l w'))

theorem slice_unique {offset x : ℕ} {p q : Pid} (hp : InSlice offset p x)
    (hq : InSlice offset q x) : p = q := by
  apply UInt32.toNat_inj.mp
  obtain ⟨hp1, hp2, -⟩ := hp
  obtain ⟨hq1, hq2, -⟩ := hq
  rcases Nat.lt_trichotomy p.toNat q.toNat with hlt | heq | hlt
  · have hle := Nat.mul_le_mul_right offset (Nat.succ_le_of_lt hlt)
    exact absurd (le_trans hle hq1) (Nat.not_le.mpr hp2)
  · exact heq
  · have hle := Nat.mul_le_mul_right offset (Nat.succ_le_of_lt hlt)
    exact absurd (le_trans hle hp1) (Nat.not_le.mpr hq2)

section Reactions

variable {r : Runtime} {env : Env} {src : Pid} {m : Message} {res : Runtime × Sends}

theorem absorb_settle_counter (a : LamportQueueAlgorithm) (src : Pid) (m : Message) :
    (a.absorb src m).settle.partyCounter = a.partyCounter := by
  have hset : (a.absorb src m).settle.partyCounter = (a.absorb src m).partyCounter := by
    unfold settle
    split <;> rfl
  rw [hset]
  cases m with
  | request x => rfl
  | reply x | partyStart x =>
    simp only [absorb]
    split <;> rfl

theorem sentIds_answer (a : LamportQueueAlgorithm) (src : Pid) (m : Message) :
    sentIds ((a.answer m).toList.map (fun x => ⟨[src], x⟩)) = [] := by
  cases m <;> rfl

/-- The ids of a reaction: none, and the counter stays, or one, of the counter and
the clock reached, and the counter moves by one. -/
inductive Issues (r : Runtime) (res : Runtime × Sends) : Prop
  | nothing : sentIds res.2 = [] → res.1.algorithm.partyCounter = r.algorithm.partyCounter →
      Issues r res
  | start (x : UInt64) : sentIds res.2 = [x] →
      res.1.algorithm.partyCounter = r.algorithm.partyCounter + 1 →
      x = (r.algorithm.partyCounter.toUInt64 +
        res.1.algorithm.lamportClock.now).toUInt32.toUInt64 →
      (∃ pkt ∈ res.2, stamp pkt.msg = time res.1) → Issues r res

theorem issues_heard (hh : Runtime.Heard r env src m res) : Issues r res := by
  cases hh with
  | stay a l ha _ _ _ =>
    subst ha
    exact .nothing (sentIds_answer ..) (absorb_settle_counter ..)
  | start a g ha _ _ =>
    subst ha
    refine .start ((r.algorithm.absorb src m).settle.startOf g).partyId ?_ ?_ ?_
      ⟨_, List.mem_append_right _ (List.mem_singleton.mpr rfl), rfl⟩
    · rw [sentIds, List.filterMap_append]
      exact congrArg (· ++ _) (sentIds_answer ..)
    · simp only [afterStart, absorb_settle_counter]
    · simp only [startOf, afterStart, absorb_settle_counter]

theorem polled_counter (hh : Runtime.Polled r env res) :
    res.1.algorithm.partyCounter = r.algorithm.partyCounter := by
  cases hh <;> rfl

theorem issues_polled (hh : Runtime.Polled r env res) : Issues r res := by
  refine .nothing ?_ (polled_counter hh)
  cases hh <;> rfl

end Reactions

section Uniqueness

variable {cfg : Config} {w : World} {p : Pid} {heard : Option (Pid × Message)}
variable {res : Runtime × Sends}

/-- The ids issued so far are distinct, lie in the slices of their processes and
below the sum from which the next id of the process is formed. -/
structure Issued (cfg : Config) (w : World) : Prop where
  sliced : ∀ c ∈ w.past, ∀ x ∈ sentIds c.out, InSlice cfg.partyIdOffset.toNat c.proc x.toNat
  below : ∀ c ∈ w.past, ∀ x ∈ sentIds c.out,
    x.toNat < (algo w c.proc).partyCounter.toNat + time (w.node c.proc)
  nodup : (startIds w.past).Nodup

/-- The id of a start in its slice is the exact sum of counter and clock. -/
theorem toNat_id {counter : PartyId} {clock : Timestamp}
    (h : counter.toNat + clock.toNat < 2 ^ 32) :
    ((counter.toUInt64 + clock).toUInt32.toUInt64).toNat = counter.toNat + clock.toNat := by
  rw [UInt32.toNat_toUInt64, UInt64.toNat_toUInt32, UInt64.toNat_add, UInt32.toNat_toUInt64]
  omega

/-- The sum of counter and clock never falls, and an id lies in its slice between the
sums before and after the reaction. -/
theorem Issues.bounds {r : Runtime} {offset : ℕ} (hi : Issues r res)
    (hd : Disciplined time stamp (⟨p, heard, r, res.1, res.2⟩ : Call))
    (hs : res.1.algorithm.partyCounter ≠ r.algorithm.partyCounter →
      InSlice offset p (r.algorithm.partyCounter.toNat + time res.1)) :
    r.algorithm.partyCounter.toNat + time r ≤ res.1.algorithm.partyCounter.toNat + time res.1 ∧
    (sentIds res.2).Nodup ∧
    ∀ x ∈ sentIds res.2, InSlice offset p x.toNat ∧
      r.algorithm.partyCounter.toNat + time r ≤ x.toNat ∧
      x.toNat < res.1.algorithm.partyCounter.toNat + time res.1 := by
  have hmono : time r ≤ time res.1 := hd.mono
  cases hi with
  | nothing hout hsame =>
    rw [hout, hsame]
    exact ⟨Nat.add_le_add_left hmono _, List.nodup_nil, fun x hx => (nomatch hx)⟩
  | start y hout hmove hy hpkt =>
    obtain ⟨pkt, hpkt, hstamp⟩ := hpkt
    have hfresh : time r < stamp pkt.msg := hd.fresh pkt hpkt
    have hslice := hs (by
      rw [hmove]
      intro heq
      have hn := congrArg UInt32.toNat heq
      rw [UInt32.toNat_add, UInt32.toNat_one] at hn
      omega)
    have hlt := hslice.2.2
    have hsum : y.toNat = r.algorithm.partyCounter.toNat + time res.1 := by
      rw [hy]
      exact toNat_id hlt
    have hnext : res.1.algorithm.partyCounter.toNat = r.algorithm.partyCounter.toNat + 1 := by
      rw [hmove, UInt32.toNat_add, UInt32.toNat_one]
      omega
    refine ⟨by omega, hout ▸ List.nodup_singleton y, ?_⟩
    intro x hx
    rw [hout] at hx
    obtain rfl := List.mem_singleton.mp hx
    rw [hsum]
    exact ⟨hslice, by omega, by omega⟩

theorem Issued.react (h : Issued cfg w) (hi : Issues (w.node p) res)
    (hd : Disciplined time stamp (⟨p, heard, w.node p, res.1, res.2⟩ : Call))
    (hs : res.1.algorithm.partyCounter ≠ (algo w p).partyCounter →
      InSlice cfg.partyIdOffset.toNat p ((algo w p).partyCounter.toNat + time res.1)) :
    Issued cfg (w.react p heard res) := by
  obtain ⟨hgrow, hnodup, hnew⟩ := hi.bounds hd hs
  refine ⟨?_, ?_, ?_⟩
  · intro c hc x hx
    rcases List.mem_cons.mp hc with rfl | hc
    · exact (hnew x hx).1
    · exact h.sliced c hc x hx
  · intro c hc x hx
    rcases List.mem_cons.mp hc with rfl | hc
    · rw [algo, World.react_node_self]
      exact (hnew x hx).2.2
    · have hold := h.below c hc x hx
      by_cases hp : c.proc = p
      · rw [hp] at hold ⊢
        rw [algo, World.react_node_self]
        exact Nat.lt_of_lt_of_le hold hgrow
      · rwa [algo, World.react_node_ne _ _ _ hp]
  · refine List.nodup_append.mpr ⟨hnodup, h.nodup, ?_⟩
    intro x hx y hy hxy
    subst hxy
    obtain ⟨c, hc, hxc⟩ := List.mem_flatMap.mp hy
    have hproc := slice_unique (h.sliced c hc x hxc) (hnew x hx).1
    have hold := h.below c hc x hxc
    rw [hproc] at hold
    exact absurd hold (Nat.not_lt.mpr (hnew x hx).2.1)

/-- Where no clock wraps and every start is sliced, all party ids are distinct. -/
theorem party_ids_unique (h : (system cfg).Run (KeepsSlices cfg) w) :
    (startIds w.past).Nodup := by
  refine (Protocol.Run.invariant (I := Issued cfg) ?_ ?_ ?_ h).nodup
  · exact ⟨fun c hc => (nomatch hc), fun c hc => (nomatch hc), List.nodup_nil⟩
  · intro w src dst env m rest hr ih hc hok
    have hheard := Runtime.onMsg_heard (w.node dst) env src m ((Sound.of_run hr).notReady dst)
    obtain ⟨⟨hclock, hts⟩, hslice⟩ := hok
    have hstamp := hts m (by simp [hc])
    simp only [SlicedStart, algo, Protocol.hear_node_self, system_onMsg]
      at hclock hstamp hslice
    refine Issued.react (w := w.consume src dst rest) ⟨ih.sliced, ih.below, ih.nodup⟩
      (issues_heard hheard) (disciplined_heard hheard hclock hstamp) hslice
  · intro w p env hr ih hp hok
    have hpolled := ((Sound.of_run hr).inStep p).onPoll env
    have hclock : time (w.node p) ≤ _ := hok.1
    simp only [Protocol.turn_node_self, system_onPoll] at hclock
    exact ih.react (issues_polled hpolled) (disciplined_polled hpolled hclock)
      (fun hne => absurd (polled_counter hpolled) hne)

/-- Two hares that dance alone, one after the other. -/
theorem party_ids_unique_alone : ∃ w, (system (haresOnly 2 1)).Run (KeepsSlices (haresOnly 2 1)) w ∧
    startIds w.past = [10000011, 5] ∧ (startIds w.past).Nodup := by
  obtain ⟨w, hrun, hids⟩ := Protocol.exists_of_exec (system (haresOnly 2 1))
    (KeepsSlices (haresOnly 2 1))
    [want 0, hand 0 1, hand 1 0, hand 0 1, release 0, want 1, hand 1 0, hand 0 1]
    (fun w => startIds w.past = [10000011, 5]) (by decide +kernel)
  exact ⟨w, hrun, hids, party_ids_unique hrun⟩

end Uniqueness

end HaresBears
