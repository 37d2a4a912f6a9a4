import HaresBears.MainLoop
import HaresBears.Rendezvous

/-!
`MPI_Send` without buffers. It may wait until its receiver is in `MpiTransport::Poll`. The
runs of the main loop are then still runs of the system, but two processes that want a
party at the same time can wait for each other in `MpiTransport::Broadcast` for ever.
-/
namespace HaresBears

open FifoNetwork LamportQueueAlgorithm

abbrev Follows (cfg : Config) : MainLoop → MainLoop → Prop :=
  (system cfg).Meets serialize decodeBuffer

abbrev UnbufferedRuns (cfg : Config) : MainLoop → Prop := Follows cfg (system cfg).loopInitial

section Sending

variable {cfg : Config} {v : MainLoop} {p : Pid}

theorem processes_cons {n : Pid} (hn : 2 ≤ n.toNat) :
    ∃ rest, processes n = 0 :: 1 :: rest := by
  obtain ⟨k, hk⟩ := Nat.exists_eq_add_of_le' hn
  refine ⟨((List.range k).map (fun i => i + 2)).map UInt32.ofNat, ?_⟩
  rw [processes, hk, List.range_succ_eq_map, List.range_succ_eq_map]
  simp only [List.map_cons, List.map_map]
  rfl

/-- The first two processes send to each other first. -/
theorem broadcastDests_first {n : Pid} (hn : 2 ≤ n.toNat) :
    (∃ rest, broadcastDests 0 n = 1 :: rest) ∧ ∃ rest, broadcastDests 1 n = 0 :: rest := by
  obtain ⟨rest, hrest⟩ := processes_cons hn
  constructor
  · refine ⟨rest.filter (fun pid => pid ≠ 0), ?_⟩
    rw [broadcastDests, hrest]
    rfl
  · refine ⟨rest.filter (fun pid => pid ≠ 1), ?_⟩
    rw [broadcastDests, hrest]
    rfl

theorem letters_broadcast {dests : List Pid} {m : Message} :
    letters [(⟨dests, m⟩ : Packet Pid Message)] = dests.map (fun q => (q, m)) :=
  List.append_nil _

/-- A process that wants a party in its first poll has a request for each other process. -/
theorem letters_firstPoll (cfg : Config) (p : Pid) :
    ∃ m, letters (((system cfg).init p).onPoll ⟨0, true⟩).2 =
      (broadcastDests p cfg.worldSize).map (fun q => (q, m)) := by
  refine ⟨.request ⟨⟨p, LamportClock.now (LamportClock.tick {})⟩⟩, ?_⟩
  rw [Runtime.onPoll_want rfl rfl rfl rfl]
  exact letters_broadcast

/-- Two first polls, one after the other, and each of the two processes waits for the other. -/
theorem exists_crossed (hn : 2 ≤ cfg.worldSize.toNat) :
    ∃ v, UnbufferedRuns cfg v ∧ Crossed v 0 1 := by
  have hlive : ∀ q : Pid, q.toNat ≤ 1 → q < cfg.worldSize := by
    intro q hq
    rw [UInt32.lt_iff_toNat_lt]
    omega
  have hstart : UnbufferedRuns cfg (system cfg).loopInitial := .refl
  obtain ⟨v, hv, hout, hstage, hbatch, hnode⟩ :=
    hstart.turn (hlive 0 (by decide)) rfl rfl rfl ⟨0, true⟩
  have hfree : v.outbox 1 = [] := by
    rw [hout]
    exact Function.update_of_ne (by decide) ..
  obtain ⟨v', hv', hout', -⟩ :=
    hv.turn (hlive 1 (by decide)) (congrFun hstage 1) (congrFun hbatch 1) hfree ⟨0, true⟩
  obtain ⟨⟨rest, hzero⟩, rest', hone⟩ := broadcastDests_first hn
  obtain ⟨m, hm⟩ := letters_firstPoll cfg 0
  obtain ⟨m', hm'⟩ := letters_firstPoll cfg 1
  rw [hzero, List.map_cons] at hm
  rw [hone, List.map_cons] at hm'
  have hthere : v'.outbox 0 = (1, m) :: rest.map (fun q => (q, m)) := by
    rw [hout', Function.update_of_ne (by decide), hout, Function.update_self]
    exact hm
  have hback : v'.outbox 1 = (0, m') :: rest'.map (fun q => (q, m')) := by
    rw [hout', Function.update_self, hnode 1 (by decide)]
    exact hm'
  exact ⟨v', hv', ⟨m, _, hthere⟩, ⟨m', _, hback⟩⟩

/-- A process alone has nothing to send. -/
theorem outbox_of_alone (hcfg : ExactConfig cfg) (hone : cfg.worldSize = 1) (hv : Runs cfg v)
    (p : Pid) : v.outbox p = [] := by
  have hsize : cfg.worldSize.toNat ≤ 1000000 := by
    rw [hone]
    decide
  obtain ⟨w, hw, hr⟩ := (loopReady hcfg hsize).refines hv
  cases ho : v.outbox p with
  | nil => rfl
  | cons x rest =>
    exfalso
    obtain ⟨q, m⟩ := x
    obtain ⟨ms, -, hflight⟩ := hr.chan p q
    rw [ho, lettersOf_cons, if_pos rfl] at hflight
    have hmem : m ∈ w.chan p q := by
      rw [hflight]
      exact List.mem_append_right _ List.mem_cons_self
    obtain ⟨hp, hq, hne, -⟩ := (Sound.of_run hw).proper p q m hmem
    rw [hone, UInt32.lt_iff_toNat_lt] at hp hq
    apply hne
    rw [← UInt32.toNat_inj]
    exact (Nat.lt_one_iff.mp hp).trans (Nat.lt_one_iff.mp hq).symm

/-- Sends that wait for their receivers keep the program within its runs, but, unless there
is one process only, some process can come to wait in a send for ever. -/
theorem unbuffered_deadlock_iff (hcfg : Accepted cfg) :
    (∀ v, UnbufferedRuns cfg v → Runs cfg v) ∧
    ((∃ v, UnbufferedRuns cfg v ∧ ∃ p, v.outbox p ≠ [] ∧
      ∀ v', Follows cfg v v' → v'.node p = v.node p ∧ v'.outbox p = v.outbox p) ↔
      cfg.worldSize ≠ 1) := by
  have hexact := hcfg.exactConfig
  refine ⟨fun v hv => (loopReachable_of_meets hv).1, ?_, ?_⟩
  · rintro ⟨v, hv, p, hout, -⟩ hone
    exact hout (outbox_of_alone hexact hone (loopReachable_of_meets hv).1 p)
  · intro hne
    have hpos := hcfg.worldSize_pos
    have hnone : cfg.worldSize.toNat ≠ 1 := fun hone => hne (UInt32.toNat_inj.mp hone)
    obtain ⟨v, hv, hcrossed⟩ := exists_crossed (show 2 ≤ cfg.worldSize.toNat by omega)
    refine ⟨v, hv, 0, ?_, fun v' hv' => (hcrossed.meets hv').1⟩
    obtain ⟨m, rest, hout⟩ := hcrossed.there
    rw [hout]
    exact List.cons_ne_nil _ _

/-- With the default options the program can come to a standstill. -/
theorem unbuffered_deadlock_iff_default : ∃ v p, Runs {} v ∧ v.outbox p ≠ [] ∧
    ∀ v', Follows {} v v' → v'.outbox p = v.outbox p := by
  have hcfg : Accepted {} := ⟨{}, 18, rfl⟩
  obtain ⟨hruns, hdeadlock⟩ := unbuffered_deadlock_iff hcfg
  obtain ⟨v, hv, p, hout, hstill⟩ := hdeadlock.mpr (by decide)
  exact ⟨v, p, hruns v hv, hout, fun v' hv' => (hstill v' hv').2⟩

end Sending

end HaresBears
