import HaresBears.EncodedChannels
import HaresBears.PartyValidity
import HaresBears.WireProtocol

/-!
The transport carries byte buffers. Every message a process sends is representable:
party ids are cut to 32 bits before they are sent, and a party has no more members
than there are processes. So the buffers behave like the messages, and no buffer is
ever dropped.
-/
namespace HaresBears

open FifoNetwork LamportQueueAlgorithm

/-- What `MpiTransport::Poll` makes of a buffer; it drops those without a message. -/
def decodeBuffer (buffer : List UInt8) : Option Message :=
  match deserialize buffer with
  | .ok msg => msg
  | .error _ => none

abbrev wireSystem (cfg : Config) : Protocol Pid Runtime (List UInt8) Env :=
  (system cfg).encoded serialize decodeBuffer

section Sizes

theorem length_flatMap_encode (pids : List Pid) :
    (pids.flatMap encode).length = 4 * pids.length := by
  induction pids with
  | nil => rfl
  | cons pid pids ih =>
    rw [List.flatMap_cons, List.length_append, ih, length_encode, List.length_cons]
    change 4 + 4 * pids.length = _
    omega

/-- The size of a representable message fits the `int` that `MPI_Send` takes. -/
theorem length_serialize {m : Message} (h : m.Representable) : (serialize m).length < 2 ^ 31 := by
  have hpid : ∀ pid : Pid, (encode pid).length = 4 := fun _ => length_encode _
  have hts : ∀ ts : Timestamp, (encode ts).length = 8 := fun _ => length_encode _
  rw [serialize_eq]
  cases m with
  | request | reply => simp [payload, hpid, hts]
  | partyStart x =>
    have hlen := h.2
    simp only [payload, List.length_cons, List.length_append, hpid, hts, length_flatMap_encode]
    omega

end Sizes

section Transparency

variable {cfg : Config} {w : World} {ok : World → Label → World → Prop}

/-- A party has no more members than there are processes. -/
theorem length_participants_le (hcfg : ExactConfig cfg) (h : (system cfg).Run ok w) {c : Call}
    (hc : c ∈ w.past) {m : PartyStart} (hforms : Forms c m) :
    m.participants.length ≤ cfg.worldSize.toNat := by
  obtain ⟨-, -, hvalid⟩ := valid_of_forms hcfg h hc hforms
  obtain ⟨-, -, hexp⟩ := explained_of_run h c hc
  have hbefore := (replicas_live h).2 c hc
  have hlive : ∀ r t, (queueAt c).lookup r = some t → r < cfg.worldSize := by
    unfold queueAt
    cases hh : c.heard with
    | none => exact hbefore
    | some x => exact lookup_absorb_live (hexp.proper hh) hbefore
  have hsub : m.participants ⊆ processes cfg.worldSize := by
    intro p hp
    obtain ⟨t, ht⟩ := Option.isSome_iff_exists.mp (hvalid.drawn p hp)
    exact mem_processes.mpr (hlive p t ht)
  have hlen := (hvalid.nodup.subperm hsub).length_le
  rwa [processes, List.length_map, List.length_range] at hlen

/-- Every message ever sent is representable. -/
theorem representable_of_run (hcfg : ExactConfig cfg) (hsize : cfg.worldSize.toNat ≤ 1000000)
    (h : (system cfg).Run ok w) : ∀ c ∈ w.past, ∀ pkt ∈ c.out, pkt.msg.Representable := by
  intro c hc pkt hpkt
  cases hm : pkt.msg with
  | request | reply => trivial
  | partyStart m =>
    have hforms : Forms c m := ⟨pkt, hpkt, hm⟩
    obtain ⟨-, hid, -⟩ := valid_of_forms hcfg h hc hforms
    refine ⟨?_, le_trans (length_participants_le hcfg h hc hforms) hsize⟩
    rw [← hid, UInt32.toNat_toUInt64]
    exact UInt32.toNat_lt _

theorem decodeBuffer_serialize {m : Message} (h : m.Representable) :
    decodeBuffer (serialize m) = some m := by
  rw [decodeBuffer, deserialize_serialize.mpr h]

theorem survive_of_run (hcfg : ExactConfig cfg) (hsize : cfg.worldSize.toNat ≤ 1000000)
    (h : (system cfg).Reachable w) : Survive serialize decodeBuffer w := by
  intro a b m hm
  have hsent : m ∈ sent w.past a b := by
    rw [sent_eq_got_append_chan h a b]
    exact List.mem_append_right _ hm
  obtain ⟨c, hc, -, hout⟩ := mem_sent.mp hsent
  obtain ⟨pkt, hpkt, -, rfl⟩ := mem_addressed.mp hout
  exact decodeBuffer_serialize (representable_of_run hcfg hsize h c hc pkt hpkt)

/-- The wire is transparent. Every message sent survives encoding and its size fits
an `int`; the system of buffers and the system of messages move in lockstep and reach
the same process states, and no buffer in flight is without a message. -/
theorem wire_transparent (hcfg : Accepted cfg) (hsize : cfg.worldSize.toNat ≤ 1000000) :
    (∀ w, (system cfg).Reachable w → ∀ c ∈ w.past, ∀ pkt ∈ c.out,
      deserialize (serialize pkt.msg) = .ok (some pkt.msg) ∧
      (serialize pkt.msg).length < 2 ^ 31) ∧
    (∀ ls, Option.Rel (Carried serialize)
      ((system cfg).exec (fun _ _ _ => True) (system cfg).initial ls)
      ((wireSystem cfg).exec (fun _ _ _ => True) (wireSystem cfg).initial ls)) ∧
    (∀ w, (system cfg).Reachable w →
      ∃ v, (wireSystem cfg).Reachable v ∧ Carried serialize w v) ∧
    ∀ v, (wireSystem cfg).Reachable v →
      (∃ w, (system cfg).Reachable w ∧ Carried serialize w v) ∧
      ∀ a b, ∀ buffer ∈ v.chan a b, ∃ msg, deserialize buffer = .ok (some msg) := by
  have hsurvive : ∀ w, (system cfg).Reachable w → Survive serialize decodeBuffer w :=
    fun w h => survive_of_run hcfg.exactConfig hsize h
  refine ⟨?_, fun ls => lockstep hsurvive .init Carried.initial ls,
    fun w h => Carried.forward hsurvive h, ?_⟩
  · intro w h c hc pkt hpkt
    have hrep := representable_of_run hcfg.exactConfig hsize h c hc pkt hpkt
    exact ⟨deserialize_serialize.mpr hrep, length_serialize hrep⟩
  · intro v hv
    obtain ⟨w, hw, hcarried⟩ := Carried.backward hsurvive hv
    refine ⟨⟨w, hw, hcarried⟩, ?_⟩
    intro a b buffer hb
    rw [hcarried.chan] at hb
    obtain ⟨m, hm, rfl⟩ := List.mem_map.mp hb
    have hdec := hsurvive w hw a b m hm
    unfold decodeBuffer at hdec
    split at hdec
    · rename_i msg hmsg
      exact ⟨m, hdec ▸ hmsg⟩
    · cases hdec

/-- A reply on its way back to the only other hare. -/
theorem wire_transparent_pair : ∃ v, (wireSystem (haresOnly 2 2)).Reachable v ∧
    v.chan 1 0 ≠ [] ∧ ∀ buffer ∈ v.chan 1 0, ∃ msg, deserialize buffer = .ok (some msg) := by
  have h := @wire_transparent (haresOnly 2 2)
    (haresOnly_accepted (by decide) (by decide)) (by decide)
  obtain ⟨w, hrun, hchan⟩ := Protocol.exists_of_exec (system (haresOnly 2 2))
    (fun _ _ _ => True) [want 0, hand 0 1] (fun w => w.chan 1 0 ≠ []) (by decide +kernel)
  obtain ⟨v, hv, hcarried⟩ := h.2.2.1 w hrun
  refine ⟨v, hv, ?_, (h.2.2.2 v hv).2 1 0⟩
  rw [hcarried.chan]
  simpa using hchan

end Transparency

end HaresBears
