import HaresBears.GroupFormation
import HaresBears.Runtime

/-!
What a process builds from its replica. The candidates are the tickets of the
queue in ticket order, weighed by the configuration, so the group is a legal
party led by the head of the queue.
-/
namespace HaresBears

/-- A legal party under `cfg`, drawn from `queue` with `leader` in front. -/
structure ValidParty (cfg : Config) (queue : RequestQueue) (leader : Pid) (members : List Pid) :
    Prop where
  nodup : members.Nodup
  first : members.head? = some leader
  hare : ∃ p ∈ members, speciesOf p cfg = .hare
  weight : (members.map (fun p => (weightOf p cfg).toNat)).sum = cfg.partyCapacity.toNat
  drawn : ∀ p ∈ members, (queue.lookup p).isSome

structure ExactConfig (cfg : Config) : Prop where
  capacity : cfg.partyCapacity ≠ 0
  hareWeight : cfg.hareWeight = 1
  bearWeight : 2 ≤ cfg.bearWeight.toNat

theorem Accepted.exactConfig {cfg : Config} (h : Accepted cfg) : ExactConfig cfg := by
  obtain ⟨hcap, -, -, hhare, hbear, -⟩ := h.facts
  exact ⟨hcap, hhare, by rw [hbear]; decide⟩

section Weights

variable {cfg : Config}

theorem weightOf_cases (hc : ExactConfig cfg) (p : Pid) :
    weightOf p cfg = 1 ∨ weightOf p cfg = cfg.bearWeight.toUInt32 := by
  unfold weightOf
  rw [hc.hareWeight]
  split
  · exact Or.inl rfl
  · exact Or.inr rfl

theorem weightOf_pos (hc : ExactConfig cfg) (p : Pid) : 1 ≤ (weightOf p cfg).toNat := by
  have hb := hc.bearWeight
  rcases weightOf_cases hc p with h | h
  · simp [h]
  · rw [h, UInt8.toNat_toUInt32]
    omega

theorem weightOf_eq_one (hc : ExactConfig cfg) (p : Pid) :
    weightOf p cfg = 1 ↔ speciesOf p cfg = .hare := by
  have hb := hc.bearWeight
  unfold weightOf speciesOf
  split
  · simp [hc.hareWeight]
  · refine ⟨fun h => ?_, fun h => (nomatch h)⟩
    have hn := congrArg UInt32.toNat h
    simp only [UInt8.toNat_toUInt32] at hn
    change _ = 1 at hn
    omega

end Weights

namespace LamportQueueAlgorithm

def candidates (a : LamportQueueAlgorithm) : List PartyMember :=
  a.globalQueue.snapshot.map (fun t => ⟨t.pid, weightOf t.pid a.cfg⟩)

theorem tryBuildParty_eq (a : LamportQueueAlgorithm) :
    a.tryBuildParty = if (a.policy.tryFormGroup a.candidates).1 then
      some (a.policy.tryFormGroup a.candidates).2 else none := by
  change (if !(a.policy.tryFormGroup a.candidates).1 then none
    else some (a.policy.tryFormGroup a.candidates).2) = _
  cases (a.policy.tryFormGroup a.candidates).1 <;> rfl

theorem candidates_pids (a : LamportQueueAlgorithm) :
    a.candidates.map PartyMember.pid = a.globalQueue.snapshot.map Ticket.pid := by
  simp [candidates, Function.comp_def]

theorem mem_candidates {a : LamportQueueAlgorithm} {c : PartyMember} :
    c ∈ a.candidates ↔
      (a.globalQueue.lookup c.pid).isSome ∧ c.w = weightOf c.pid a.cfg := by
  unfold candidates
  rw [List.mem_map]
  constructor
  · intro hex
    obtain ⟨t, ht, hc⟩ := hex
    subst hc
    exact ⟨by rw [RequestQueue.mem_snapshot.mp ht]; rfl, rfl⟩
  · intro hex
    obtain ⟨hs, hw⟩ := hex
    obtain ⟨t, ht⟩ := Option.isSome_iff_exists.mp hs
    have hpid := RequestQueue.lookup_pid ht
    refine ⟨t, RequestQueue.mem_snapshot.mpr (by rwa [hpid]), ?_⟩
    cases c
    simp_all

theorem candidates_head {a : LamportQueueAlgorithm} {p : Pid}
    (h : a.globalQueue.getFirstPid = some p) :
    ∃ rest, a.candidates = ⟨p, weightOf p a.cfg⟩ :: rest := by
  unfold RequestQueue.getFirstPid OrderedSet.first? at h
  unfold candidates RequestQueue.snapshot
  cases hq : a.globalQueue.queue.elems with
  | nil => simp [hq] at h
  | cons t ts =>
    simp only [hq, List.head?_cons, Option.map_some, Option.some.injEq] at h
    subst h
    exact ⟨_, rfl⟩

section Building

variable {a : LamportQueueAlgorithm} (hc : ExactConfig a.cfg)
variable (hp : a.policy = ⟨a.cfg.partyCapacity, a.cfg.hareWeight, a.cfg.bearWeight⟩)
include hc hp

theorem tryFormGroup_candidates {leader : PartyMember} {rest : List PartyMember}
    (hcand : a.candidates = leader :: rest) :
    LamportPolicy.Outcome a.policy leader rest (a.policy.tryFormGroup a.candidates) := by
  have hw := (mem_candidates.mp (hcand ▸ List.mem_cons_self : leader ∈ a.candidates)).2
  have hb := hc.bearWeight
  rw [hcand]
  apply LamportPolicy.tryFormGroup_outcome
  · rw [hp]
    exact hc.hareWeight
  · rw [hp]
    dsimp only
    omega
  · rw [hp]
    exact hc.capacity
  · rw [hw]
    exact weightOf_pos hc _
  · rw [← hcand, candidates_pids]
    exact a.globalQueue.snapshot_pids_nodup

/-- A group built by the head of the queue is a legal party. -/
theorem tryBuildParty_valid {p : Pid} {g : List Pid}
    (hfirst : a.globalQueue.getFirstPid = some p) (hg : a.tryBuildParty = some g) :
    ValidParty a.cfg a.globalQueue p g := by
  obtain ⟨rest, hcand⟩ := candidates_head hfirst
  have hout := tryFormGroup_candidates hc hp hcand
  have hnd : ((⟨p, weightOf p a.cfg⟩ :: rest).map PartyMember.pid).Nodup := by
    rw [← hcand, candidates_pids]
    exact a.globalQueue.snapshot_pids_nodup
  have hh : a.policy.hareWeight = 1 := by
    rw [hp]
    exact hc.hareWeight
  have hmem : ∀ c ∈ (⟨p, weightOf p a.cfg⟩ : PartyMember) :: rest,
      (a.globalQueue.lookup c.pid).isSome ∧ c.w = weightOf c.pid a.cfg := by
    intro c hcm
    rw [← hcand] at hcm
    exact mem_candidates.mp hcm
  rw [tryBuildParty_eq] at hg
  generalize a.policy.tryFormGroup a.candidates = result at hout hg
  cases hout with
  | tooHeavy | infeasible => cases hg
  | formed k hle hk hf _ =>
    obtain rfl := Option.some.inj hg
    refine ⟨LamportPolicy.groupWith_nodup hnd, rfl, ?_, ?_, ?_⟩
    · obtain ⟨c, hcm, hw, hgm⟩ := LamportPolicy.groupWith_hare hh hf
      refine ⟨c.pid, hgm, (weightOf_eq_one hc c.pid).mp ?_⟩
      rw [← (hmem c hcm).2]
      exact hw
    · have hsum := LamportPolicy.groupWith_weight hh (fun q => (weightOf q a.cfg).toNat)
        (fun c hcm => congrArg UInt32.toNat (hmem c hcm).2.symm) hle hk hf
      rw [hsum, hp]
    · intro r hr
      obtain ⟨c, hcm, rfl⟩ := List.mem_map.mp (LamportPolicy.mem_groupWith hr)
      exact (hmem c hcm).1

/-- Where the head of the queue finds no party, no legal party is among the
candidates, unless the head is a bear and the capacity leaves no room beside it. -/
theorem blocked_of_tryBuildParty_none {p : Pid}
    (hfirst : a.globalQueue.getFirstPid = some p) (hn : a.tryBuildParty = none)
    {party : Finset PartyMember} (hsub : ∀ c ∈ party, c ∈ a.candidates)
    (hfill : a.policy.Fills party) :
    speciesOf p a.cfg = .bear ∧ a.cfg.partyCapacity.toNat ≤ a.cfg.bearWeight.toNat := by
  obtain ⟨rest, hcand⟩ := candidates_head hfirst
  have hout := tryFormGroup_candidates hc hp hcand
  have hh : a.policy.hareWeight = 1 := by
    rw [hp]
    exact hc.hareWeight
  have hw : ∀ c ∈ (⟨p, weightOf p a.cfg⟩ : PartyMember) :: rest,
      c.w = 1 ∨ c.w = a.policy.bearWeight.toUInt32 := by
    intro c hcm
    rw [← hcand] at hcm
    rw [(mem_candidates.mp hcm).2, hp]
    exact weightOf_cases hc c.pid
  rw [hcand] at hsub
  by_contra hroom
  have hex := LamportPolicy.feasible_of_exchange hh hw (by
    by_cases hsp : speciesOf p a.cfg = .hare
    · exact Or.inl ((weightOf_eq_one hc p).mpr hsp)
    · right
      rw [hp]
      have hbear : speciesOf p a.cfg = .bear := by
        cases hs : speciesOf p a.cfg with
        | hare => exact absurd hs hsp
        | bear => rfl
      by_contra hlt
      exact hroom ⟨hbear, Nat.le_of_not_lt hlt⟩) hsub hfill
  obtain ⟨hle, k, hk, hf⟩ := hex
  rw [tryBuildParty_eq] at hn
  generalize a.policy.tryFormGroup a.candidates = result at hout hn
  cases hout with
  | tooHeavy hlt => omega
  | infeasible _ hno => exact hno k hk hf
  | formed => cases hn

end Building

end LamportQueueAlgorithm

end HaresBears
