import HaresBears.Continuations
import HaresBears.Quiescence
import HaresBears.Traffic

/-!
The time of a party. When messages arrive in order, a process stays in a party from the
step in which it enters it until its first poll more than the party time later, and nothing
else ends or prolongs its stay.
-/
namespace HaresBears

open FifoNetwork LamportQueueAlgorithm

section Process

variable {r : Runtime} {env : Env} {src : Pid} {m : Message} {res : Runtime × Sends}

theorem absorb_myParty {a : LamportQueueAlgorithm} (hn : ¬ m.Names a.myPid) :
    (a.absorb src m).myParty = a.myParty := by
  cases m with
  | request x => rfl
  | reply x =>
    simp only [LamportQueueAlgorithm.absorb]
    split <;> rfl
  | partyStart x =>
    have hx : a.myPid ∉ x.participants := hn
    simp only [LamportQueueAlgorithm.absorb, hx, if_false]

/-- A process that enters a party notes the time. -/
theorem timeMark_of_enters (hh : Runtime.Heard r env src m res)
    (hout : r.algorithm.currentState ≠ .inParty)
    (hin : res.1.algorithm.currentState = .inParty) : res.1.localSrc.timeMark = env.now := by
  cases hh with
  | stay a l ha _ _ hl =>
    subst ha
    by_cases hn : m.Names r.algorithm.myPid
    · rw [hl hn]
      rfl
    · exfalso
      have hstate := absorb_state src hn
      rcases settle_state (r.algorithm.absorb src m) with hs | ⟨-, hs⟩
      · exact hout (by rw [← hstate, ← hs, hin])
      · cases hin.symm.trans hs
  | start a g _ _ _ => rfl

/-- A message that does not name a process in a party leaves it there. -/
theorem heard_inParty (hh : Runtime.Heard r env src m res)
    (hin : r.algorithm.currentState = .inParty) (hn : ¬ m.Names r.algorithm.myPid) :
    res.1.algorithm.currentState = .inParty ∧
      res.1.algorithm.myParty = r.algorithm.myParty ∧ res.1.localSrc = r.localSrc := by
  have hstate : (r.algorithm.absorb src m).currentState = .inParty := by
    rw [absorb_state src hn, hin]
  have hsettle : (r.algorithm.absorb src m).settle = r.algorithm.absorb src m := by
    apply settle_of_ne
    rw [hstate]
    exact AppState.noConfusion
  cases hh with
  | stay a l ha _ hl _ =>
    subst ha
    rw [hsettle]
    exact ⟨hstate, absorb_myParty hn, hl hn⟩
  | start a g ha hr _ =>
    subst ha
    have hqueued := hr.queued
    rw [hsettle, hstate] at hqueued
    cases hqueued

/-- A poll of a process in a party ends its stay or does nothing. -/
theorem onPoll_inParty (h : InStep r) (hin : r.algorithm.currentState = .inParty) (env : Env) :
    (r.localSrc.timeMark + 501000000 ≤ env.now ∧
      (r.onPoll env).1.algorithm.currentState = .idle) ∨
    (¬ r.localSrc.timeMark + 501000000 ≤ env.now ∧ r.onPoll env = (r, [])) := by
  have hn := h.entered.mpr hin
  by_cases hrel : r.localSrc.shouldReleaseParty env = true
  · left
    refine ⟨(shouldReleaseParty_iff hn).mp hrel, ?_⟩
    rw [Runtime.onPoll_release hrel]
    rfl
  · right
    refine ⟨fun hle => hrel ((shouldReleaseParty_iff hn).mpr hle), ?_⟩
    have hpolled := h.onPoll env
    have hwant : r.localSrc.shouldWantParty env = false := by
      simp [LocalThread.shouldWantParty, hn]
    simp [Runtime.onPoll, LocalThread.poll, hwant, hrel]

end Process

structure InPartySince (p : Pid) (party : Option Party) (entered : ℕ) (w : World) : Prop where
  state : (algo w p).currentState = .inParty
  party : (algo w p).myParty = party
  timeMark : (w.node p).localSrc.timeMark = entered

section Stay

variable {cfg : Config} {w w' v : World} {l : Label} {p : Pid} {m : Message} {n : ℕ}
variable {party : Option Party} {entered : ℕ}

/-- No start on its way names a process in a party. -/
theorem unclaimed_of_inParty (hcfg : ExactConfig cfg) (h : (system cfg).Run InOrder w)
    (hin : (algo w p).currentState = .inParty) : Unclaimed w p := by
  intro q x hx hp
  have hphase := (orderly_of_run hcfg h).member_pending ⟨x, hx, abstract_of_named hp⟩ hp
  have hin' : (abstraction w).phase p = .inParty := by
    show phaseOf (algo w p).currentState = _
    rw [hin]
    rfl
  rw [hin'] at hphase
  rcases hphase with hphase | hphase <;> cases hphase

theorem InPartySince.congr (h : InPartySince p party entered w) (hsame : w'.node p = w.node p) :
    InPartySince p party entered w' := by
  obtain ⟨hstate, hparty, hmark⟩ := h
  refine ⟨?_, ?_, ?_⟩
  · rw [algo, hsame]
    exact hstate
  · rw [algo, hsame]
    exact hparty
  · rw [hsame]
    exact hmark

theorem InPartySince.hear {src dst : Pid} {env : Env} {rest : List Message}
    (hcfg : ExactConfig cfg) (h : (system cfg).Run InOrder w) (hin : InPartySince p party entered w)
    (hchan : w.chan src dst = m :: rest) :
    InPartySince p party entered ((system cfg).hear w src dst env m rest) := by
  have hs := Sound.of_run h
  by_cases hpd : p = dst
  · subst hpd
    have hmem : m ∈ w.chan src p := by simp [hchan]
    have hn : ¬ m.Names (algo w p).myPid := by
      rw [(hs.coherent p).myPid]
      exact fun hx => unclaimed_of_inParty hcfg h hin.state src m hmem (names_iff.mp hx)
    obtain ⟨hstate, hparty, hlocal⟩ := heard_inParty
      (Runtime.onMsg_heard (w.node p) env src m (hs.notReady p)) hin.state hn
    refine ⟨?_, ?_, ?_⟩
    · rw [algo, Protocol.hear_node_self]
      exact hstate
    · rw [algo, Protocol.hear_node_self]
      exact hparty.trans hin.party
    · rw [Protocol.hear_node_self, system_onMsg, hlocal]
      exact hin.timeMark
  · exact hin.congr (Protocol.hear_node_ne hpd)

/-- What a step does with a process in a party. -/
theorem InPartySince.next (hcfg : ExactConfig cfg) (h : (system cfg).Run InOrder w)
    (hin : InPartySince p party entered w) (hnext : (system cfg).next w l = some w') :
    ((∃ env, l = .poll p env ∧ entered + 501000000 ≤ env.now) ∧
      (algo w' p).currentState = .idle) ∨
    ((¬ ∃ env, l = .poll p env ∧ entered + 501000000 ≤ env.now) ∧
      InPartySince p party entered w') := by
  rcases Protocol.next_cases hnext with ⟨src, dst, env, m, rest, rfl, hchan, rfl⟩ |
    ⟨q, env, rfl, -, rfl⟩
  · right
    refine ⟨?_, hin.hear hcfg h hchan⟩
    rintro ⟨env', hl, -⟩
    cases hl
  · by_cases hpq : p = q
    · subst hpq
      have hmark := hin.timeMark
      have hstep := (Sound.of_run h).inStep p
      rcases onPoll_inParty hstep hin.state env with ⟨hle, hidle⟩ | ⟨hlt, hstay⟩
      · left
        rw [hmark] at hle
        refine ⟨⟨env, rfl, hle⟩, ?_⟩
        rw [algo, Protocol.turn_node_self]
        exact hidle
      · right
        rw [hmark] at hlt
        refine ⟨?_, hin.congr ?_⟩
        · rintro ⟨env', hl, hle⟩
          obtain ⟨-, rfl⟩ := Label.poll.inj hl
          exact hlt hle
        · rw [Protocol.turn_node_self, system_onPoll, hstay]
    · right
      refine ⟨?_, hin.congr (Protocol.turn_node_ne hpq)⟩
      rintro ⟨env', hl, -⟩
      exact hpq (Label.poll.inj hl).1.symm

theorem inPartySince_of_enters (h : (system cfg).Run InOrder w)
    (hnext : (system cfg).next w l = some w') (hout : (algo w p).currentState ≠ .inParty)
    (hin : (algo w' p).currentState = .inParty) :
    InPartySince p (algo w' p).myParty l.env.now w' := by
  have hs := Sound.of_run h
  refine ⟨hin, rfl, ?_⟩
  rcases Protocol.next_cases hnext with ⟨src, dst, env, m, rest, rfl, hchan, rfl⟩ |
    ⟨q, env, rfl, hq, rfl⟩
  · by_cases hpd : p = dst
    · subst hpd
      rw [algo, Protocol.hear_node_self] at hin
      rw [Protocol.hear_node_self]
      exact timeMark_of_enters (Runtime.onMsg_heard (w.node p) env src m (hs.notReady p)) hout hin
    · rw [algo, Protocol.hear_node_ne hpd] at hin
      exact absurd hin hout
  · exfalso
    by_cases hpq : p = q
    · subst hpq
      have hpolled := (hs.inStep p).onPoll env
      rw [algo, Protocol.turn_node_self, system_onPoll] at hin
      generalize Runtime.onPoll (w.node p) env = res at hpolled hin
      cases hpolled with
      | nothing => exact hout hin
      | want _ => cases hin
      | release _ => cases hin
    · rw [algo, Protocol.turn_node_ne hpq] at hin
      exact hout hin

/-- A party lasts as long as it should: while a process that has entered a party at some
time stays in it, it keeps this party, and a step ends its stay exactly if it is a poll of
it at least 501 milliseconds after that time. -/
theorem party_lasts (hcfg : Accepted cfg) (h : (system cfg).Run InOrder w)
    (hnext : (system cfg).next w l = some w') (hok : InOrder w l w')
    (hout : (algo w p).currentState ≠ .inParty) (hin : (algo w' p).currentState = .inParty)
    (hl : (system cfg).Leads (fun u k u' => InOrder u k u' ∧
      (algo u' p).currentState = .inParty) w' n v) :
    (algo v p).myParty = (algo w' p).myParty ∧
      ∀ l' v', (system cfg).next v l' = some v' →
        ((algo v' p).currentState = .idle ↔
          ∃ env, l' = .poll p env ∧ l.env.now + 501000000 ≤ env.now) ∧
        ((algo v' p).currentState = .idle ∨ (algo v' p).currentState = .inParty) := by
  have hexact := hcfg.exactConfig
  have hboth := hl.invariant (I := fun v => (system cfg).Run InOrder v ∧
    InPartySince p (algo w' p).myParty l.env.now v) ?_
    ⟨.step h hnext hok, inPartySince_of_enters h hnext hout hin⟩
  · obtain ⟨hrun, hsince⟩ := hboth
    refine ⟨hsince.party, fun l' v' hnext' => ?_⟩
    rcases hsince.next hexact hrun hnext' with ⟨hend, hidle⟩ | ⟨hgo, hstay⟩
    · exact ⟨iff_of_true hidle hend, Or.inl hidle⟩
    · refine ⟨iff_of_false ?_ hgo, Or.inr hstay.state⟩
      rw [hstay.state]
      exact AppState.noConfusion
  · intro u k u' hI hk hstep
    obtain ⟨hrun, hsince⟩ := hI
    refine ⟨.step hrun hk hstep.1, ?_⟩
    rcases hsince.next hexact hrun hk with ⟨-, hidle⟩ | ⟨-, hstay⟩
    · cases hidle.symm.trans hstep.2
    · exact hstay

/-- A hare that starts its party at time 7 leaves it half a second and a millisecond
later, and not before. -/
theorem party_lasts_pair : ∃ w, (system (haresOnly 2 2)).Reachable w ∧
    (algo w 0).currentState = .inParty ∧
    (algo ((system (haresOnly 2 2)).turn w 0 ⟨501000006, false⟩) 0).currentState ≠ .idle ∧
    (algo ((system (haresOnly 2 2)).turn w 0 ⟨501000007, false⟩) 0).currentState = .idle := by
  obtain ⟨w, hrun, hout, w', hnext, hok, hin⟩ := Protocol.exists_of_exec (system (haresOnly 2 2))
    InOrder [want 0, want 1, hand 0 1, hand 1 0]
    (fun w => (algo w 0).currentState ≠ .inParty ∧
      ∃ w' ∈ (system (haresOnly 2 2)).next w (.deliver 1 0 ⟨7, true⟩),
        InOrder w (.deliver 1 0 ⟨7, true⟩) w' ∧ (algo w' 0).currentState = .inParty)
    (by decide +kernel)
  obtain ⟨-, hends⟩ := party_lasts (haresOnly_accepted (by decide) (by decide)) hrun hnext hok hout
    hin .refl
  have hlive : (0 : Pid) < (haresOnly 2 2).worldSize := by decide
  have hpoll : ∀ env, (system (haresOnly 2 2)).next w' (.poll 0 env) =
      some ((system (haresOnly 2 2)).turn w' 0 env) := by
    intro env
    rw [Protocol.next]
    exact if_pos hlive
  refine ⟨w', hrun.reachable.step hnext trivial, hin, ?_, ?_⟩
  · intro hidle
    obtain ⟨env, hl, hle⟩ := (hends _ _ (hpoll _)).1.mp hidle
    obtain ⟨-, rfl⟩ := Label.poll.inj hl
    revert hle
    decide
  · exact (hends _ _ (hpoll ⟨501000007, false⟩)).1.mpr ⟨_, rfl, by decide⟩

end Stay

end HaresBears
