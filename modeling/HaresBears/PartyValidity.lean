import HaresBears.Refinement

/-!
Every party is valid. A party start carries a group that the policy has formed
from the replica of its leader, and the party a process holds is the content of
a party start that names it.
-/
namespace HaresBears

open FifoNetwork LamportQueueAlgorithm

section Parties

variable {cfg : Config} {w : World} {ok : World → Label → World → Prop}

theorem Explained.proper {c : Call} (h : Explained cfg c) {src : Pid} {m : Message}
    (hh : c.heard = some (src, m)) : Proper cfg src c.proc m := by
  cases h with
  | heard src' m' env hh' hp _ =>
    obtain ⟨rfl, rfl⟩ := Prod.mk.inj (Option.some.inj (hh.symm.trans hh'))
    exact hp
  | polled env hh' _ _ =>
    rw [hh'] at hh
    cases hh

/-- A broadcast start comes from its leader, its id fits 32 bits, and its party is
valid for the replica it was formed from. -/
theorem valid_of_forms (hcfg : ExactConfig cfg) (h : (system cfg).Run ok w) {c : Call}
    (hc : c ∈ w.past) {m : PartyStart} (hforms : Forms c m) :
    m.senderTicket.pid = c.proc ∧ m.partyId.toUInt32.toUInt64 = m.partyId ∧
      ValidParty cfg (queueAt c) c.proc m.participants := by
  obtain ⟨hcoh, -, hexp⟩ := explained_of_run h c hc
  obtain ⟨pkt, hpkt, hmsg⟩ := hforms
  cases hexp.sent hpkt with
  | answer src x y _ hy hp =>
    obtain ⟨z, -, rfl⟩ := answer_eq_some hy
    subst hp
    cases hmsg
  | start src x g hh hr _ _ hp =>
    have hset := (hcoh.absorb (hexp.proper hh)).settle
    subst hp
    obtain rfl := Message.partyStart.inj hmsg
    refine ⟨hset.myPid, UInt32.toUInt32_toUInt64 _ ▸ rfl, ?_⟩
    have hvalid := tryBuildParty_valid (by rw [hset.config]; exact hcfg)
      (by rw [hset.policy, hset.config]) hr.first hr.group
    rw [hset.config, hset.myPid, settle_queue] at hvalid
    rw [queueAt, hh]
    exact hvalid
  | want _ _ _ hp =>
    subst hp
    cases hmsg

def Held (w : World) : Prop :=
  ∀ p party, (algo w p).myParty = some party →
    ∃ c ∈ w.past, ∃ m, Forms c m ∧ party = Party.ofStart m ∧ p ∈ m.participants

theorem absorb_party {a : LamportQueueAlgorithm} {src : Pid} {m : Message} {party : Party}
    (h : (a.absorb src m).settle.myParty = some party) :
    a.myParty = some party ∨
      ∃ x, m = .partyStart x ∧ party = Party.ofStart x ∧ a.myPid ∈ x.participants := by
  have hset : (a.absorb src m).settle.myParty = (a.absorb src m).myParty := by
    unfold settle
    split <;> rfl
  rw [hset] at h
  cases m with
  | request x => exact Or.inl h
  | reply x =>
    left
    simp only [absorb] at h
    split at h <;> exact h
  | partyStart x =>
    simp only [absorb] at h
    split at h
    · rename_i hn
      right
      simp only [goToParty, resetTracker, Option.some.injEq] at h
      exact ⟨x, rfl, h.symm, hn⟩
    · exact Or.inl h

theorem forms_start (p : Pid) (heard : Option (Pid × Message)) (r r' : Runtime) (out : Sends)
    (a : LamportQueueAlgorithm) (g : List Pid) :
    Forms ⟨p, heard, r, r', out ++ [⟨broadcastDests a.myPid a.cfg.worldSize,
      .partyStart (a.startOf g)⟩]⟩ (a.startOf g) :=
  ⟨⟨_, .partyStart (a.startOf g)⟩, List.mem_append_right _ (List.mem_singleton.mpr rfl), rfl⟩

theorem held_of_run (h : (system cfg).Run ok w) : Held w := by
  refine Protocol.Run.invariant (I := Held) ?_ ?_ ?_ h
  · intro p party hp
    simp [algo, Protocol.initial, system, LamportQueueAlgorithm.create] at hp
  · intro w src dst env m rest hr ih hchan _ p party hp
    have hs := Sound.of_run hr
    have hheard := Runtime.onMsg_heard (w.node dst) env src m (hs.notReady dst)
    by_cases hpd : p = dst
    · subst hpd
      have hpid := (hs.coherent p).myPid
      rw [algo, Protocol.hear_node_self, system_onMsg] at hp
      simp only [Protocol.hear, World.react, system_onMsg, World.consume_past]
      generalize Runtime.onMsg (w.node p) env src m = res at hheard hp ⊢
      cases hheard with
      | stay a l ha _ _ _ =>
        subst ha
        rcases absorb_party hp with hold | ⟨x, rfl, hx, hn⟩
        · obtain ⟨c, hc, y, hy⟩ := ih p party hold
          exact ⟨c, List.mem_cons_of_mem _ hc, y, hy⟩
        · have hmem : Message.partyStart x ∈ w.chan src p := by simp [hchan]
          obtain ⟨c, hc, -, hforms⟩ := mem_past_of_start hr hmem
          exact ⟨c, List.mem_cons_of_mem _ hc, x, hforms, hx, hpid ▸ hn⟩
      | start a g ha hready _ =>
        subst ha
        have hset := ((hs.coherent p).absorb (hs.proper src p m (by simp [hchan]))).settle
        exact ⟨_, List.mem_cons_self, _, forms_start .., (Option.some.inj hp).symm,
          hset.myPid ▸ hready.mem⟩
    · rw [algo, Protocol.hear_node_ne hpd] at hp
      obtain ⟨c, hc, y, hy⟩ := ih p party hp
      exact ⟨c, List.mem_cons_of_mem _ hc, y, hy⟩
  · intro w r env hr ih _ _ p party hp
    have hpolled := ((Sound.of_run hr).inStep r).onPoll env
    have hold : (algo w p).myParty = some party := by
      by_cases hpr : p = r
      · subst hpr
        rw [algo, Protocol.turn_node_self, system_onPoll] at hp
        generalize Runtime.onPoll (w.node p) env = res at hpolled hp
        cases hpolled with
        | nothing => exact hp
        | want _ => exact hp
        | release _ => simp [afterRelease] at hp
      · rwa [algo, Protocol.turn_node_ne hpr] at hp
    obtain ⟨c, hc, y, hy⟩ := ih p party hold
    exact ⟨c, List.mem_cons_of_mem _ hc, y, hy⟩

/-- Every party is valid: every party start ever broadcast, and every party held by
a process, which is the party of such a start and names its holder. -/
theorem parties_are_valid (hcfg : Accepted cfg) (h : (system cfg).Reachable w) :
    (∀ c ∈ w.past, ∀ m, Forms c m → m.senderTicket.pid = c.proc ∧
      ValidParty cfg (queueAt c) m.senderTicket.pid m.participants) ∧
    ∀ p, (algo w p).currentState = .inParty → ∃ party, (algo w p).myParty = some party ∧
      p ∈ party.members ∧ ∃ c ∈ w.past, ∃ m, Forms c m ∧ c.proc = party.partyLeader ∧
        party.partyLeader = m.senderTicket.pid ∧ party.partyId.toUInt64 = m.partyId ∧
        party.members = m.participants ∧
        ValidParty cfg (queueAt c) party.partyLeader party.members := by
  have hvalid : ∀ c ∈ w.past, ∀ m, Forms c m → m.senderTicket.pid = c.proc ∧
      m.partyId.toUInt32.toUInt64 = m.partyId ∧
      ValidParty cfg (queueAt c) c.proc m.participants :=
    fun c hc m hforms => valid_of_forms hcfg.exactConfig h hc hforms
  constructor
  · intro c hc m hforms
    obtain ⟨hpid, -, hv⟩ := hvalid c hc m hforms
    exact ⟨hpid, hpid ▸ hv⟩
  · intro p hp
    obtain ⟨party, hparty⟩ := Option.ne_none_iff_exists'.mp
      (((Sound.of_run h).coherent p).party.mpr hp)
    obtain ⟨c, hc, m, hforms, rfl, hmem⟩ := held_of_run h p party hparty
    obtain ⟨hpid, hid, hv⟩ := hvalid c hc m hforms
    rw [← hpid] at hv
    exact ⟨_, hparty, hmem, c, hc, m, hforms, hpid.symm, rfl, hid, rfl, hv⟩

/-- A hare that has been taken into the party of another. -/
theorem parties_are_valid_pair :
    ∃ w, (system (haresOnly 2 2)).Reachable w ∧ (algo w 1).currentState = .inParty ∧
      ∃ party, (algo w 1).myParty = some party ∧ 1 ∈ party.members ∧
        ∃ c ∈ w.past, ∃ m, Forms c m ∧ c.proc = party.partyLeader ∧
          party.partyLeader = m.senderTicket.pid ∧ party.partyId.toUInt64 = m.partyId ∧
          party.members = m.participants ∧
          ValidParty (haresOnly 2 2) (queueAt c) party.partyLeader party.members := by
  obtain ⟨w, hrun, hp⟩ := Protocol.exists_of_exec (system (haresOnly 2 2)) (fun _ _ _ => True)
    [want 0, want 1, hand 0 1, hand 1 0, hand 1 0, hand 0 1, hand 0 1]
    (fun w => (algo w 1).currentState = .inParty) (by decide +kernel)
  exact ⟨w, hrun, hp,
    (parties_are_valid (haresOnly_accepted (by decide) (by decide)) hrun).2 1 hp⟩

end Parties

end HaresBears
