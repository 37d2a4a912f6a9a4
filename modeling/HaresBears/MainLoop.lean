import HaresBears.EventLoop
import HaresBears.MpiTransport
import HaresBears.Cascades

/-!
`Runtime::Run` of every process over `MpiTransport`. `Poll` of the transport takes and
decodes buffers until it finds none, and the runtime then handles the whole batch before
it polls the local thread; `Send` and `Broadcast` write one buffer after the other. All
this can be taken for atomic reactions to single messages.
-/
namespace HaresBears

open FifoNetwork LamportQueueAlgorithm

abbrev MainLoop := LoopWorld Pid Runtime Message (List UInt8)

abbrev Runs (cfg : Config) : MainLoop → Prop :=
  (system cfg).LoopReachable serialize decodeBuffer

section Loops

variable {cfg : Config} {v : MainLoop} {env : Env}

theorem broadcastDests_nodup (self worldSize : Pid) : (broadcastDests self worldSize).Nodup :=
  (processes_nodup worldSize).filter _

theorem packetOf_nodup {a : LamportQueueAlgorithm} {x : Action} {pkt : Packet Pid Message}
    (h : Runtime.packetOf a x = some pkt) : pkt.dests.Nodup := by
  cases x with
  | send dest msg =>
    obtain rfl := Option.some.inj h
    exact List.nodup_singleton dest
  | broadcast msg =>
    obtain rfl := Option.some.inj h
    exact broadcastDests_nodup ..
  | notify | log => cases h

theorem dispatch_nodup {r : Runtime} {sends : Sends} (ev : Event)
    (h : ∀ pkt ∈ sends, pkt.dests.Nodup) :
    ∀ pkt ∈ (r.dispatch env sends ev).2, pkt.dests.Nodup := by
  intro pkt hpkt
  unfold Runtime.dispatch at hpkt
  simp only [Runtime.drainActions_eq, List.mem_append, List.mem_filterMap] at hpkt
  rcases hpkt with hpkt | ⟨x, -, hx⟩
  · exact h pkt hpkt
  · exact packetOf_nodup hx

/-- No poll sends a message twice to one process. -/
theorem onPoll_nodup (r : Runtime) (env : Env) :
    ∀ pkt ∈ (r.onPoll env).2, pkt.dests.Nodup := by
  unfold Runtime.onPoll
  generalize r.localSrc.poll env = polled
  obtain ⟨l, events⟩ := polled
  dsimp only
  have hfold : ∀ (r : Runtime) (sends : Sends), (∀ pkt ∈ sends, pkt.dests.Nodup) →
      ∀ pkt ∈ (events.foldl (fun acc loc => acc.1.dispatch env acc.2 (.loc loc)) (r, sends)).2,
        pkt.dests.Nodup := by
    induction events with
    | nil => exact fun r sends h => h
    | cons loc events ih => exact fun r sends h => ih _ _ (dispatch_nodup (.loc loc) h)
  exact hfold _ [] (by simp)

/-- A poll before the party time is over, with no luck in the draw. -/
theorem onPoll_idle (r : Runtime) : r.onPoll ⟨0, false⟩ = (r, []) := by
  have hwant : r.localSrc.shouldWantParty ⟨0, false⟩ = false := by
    simp [LocalThread.shouldWantParty]
  have hrelease : r.localSrc.shouldReleaseParty ⟨0, false⟩ = false := by
    unfold LocalThread.shouldReleaseParty
    split
    · rfl
    · simp
  simp [Runtime.onPoll, LocalThread.poll, hwant, hrelease]

theorem loopReady (hcfg : ExactConfig cfg) (hsize : cfg.worldSize.toNat ≤ 1000000) :
    LoopReady (system cfg) serialize decodeBuffer where
  survive := fun w h => survive_of_run hcfg hsize h
  live := by
    intro w h a b hne
    obtain ⟨m, rest, hm⟩ := List.exists_cons_of_ne_nil hne
    exact ((Sound.of_run h).proper a b m (by simp [hm])).dst_live
  heard := fun p r env src m => dispatch_nodup (.net ⟨src, m⟩) (by simp)
  polled := fun p r env => onPoll_nodup r env

/-- The main loop is the system of atomic reactions: every state the loops reach carries
the processes and messages of a reachable world, every reachable world is reached by the
loops between two iterations, and no buffer in a channel is without a message. -/
theorem main_loop_refines (hcfg : Accepted cfg) (hsize : cfg.worldSize.toNat ≤ 1000000) :
    (∀ v, Runs cfg v → (∃ w, (system cfg).Reachable w ∧ Realizes serialize w v) ∧
      ∀ a b, ∀ buffer ∈ v.chan a b, ∃ msg, deserialize buffer = .ok (some msg)) ∧
    ∀ w, (system cfg).Reachable w → ∃ v, Runs cfg v ∧ Settled serialize w v := by
  have hready := loopReady hcfg.exactConfig hsize
  refine ⟨?_, fun w h => hready.covers (fun _ r => onPoll_idle r) h⟩
  intro v hv
  obtain ⟨w, hw, hr⟩ := hready.refines hv
  refine ⟨⟨w, hw, hr⟩, ?_⟩
  intro a b buffer hb
  obtain ⟨ms, hchan, hflight⟩ := hr.chan a b
  rw [hchan] at hb
  obtain ⟨m, hm, rfl⟩ := List.mem_map.mp hb
  have hdec := hready.survive w hw a b m (by simp [hflight, hm])
  unfold decodeBuffer at hdec
  split at hdec
  · rename_i msg hmsg
    exact ⟨m, hdec ▸ hmsg⟩
  · cases hdec

/-- A reply is on its way to a hare, in a buffer. -/
theorem main_loop_refines_pair : ∃ v, Runs (haresOnly 2 2) v ∧ v.chan 1 0 ≠ [] ∧
    ∃ w, (system (haresOnly 2 2)).Reachable w ∧ Realizes serialize w v := by
  have h := @main_loop_refines (haresOnly 2 2)
    (haresOnly_accepted (by decide) (by decide)) (by decide)
  obtain ⟨w, hrun, hchan⟩ := Protocol.exists_of_exec (system (haresOnly 2 2))
    (fun _ _ _ => True) [want 0, hand 0 1] (fun w => w.chan 1 0 ≠ []) (by decide +kernel)
  obtain ⟨v, hv, hsettled⟩ := h.2 w hrun
  refine ⟨v, hv, ?_, (h.1 v hv).1⟩
  rw [hsettled.chan]
  simpa using hchan

end Loops

end HaresBears
