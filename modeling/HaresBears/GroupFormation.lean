import HaresBears.LamportPolicy
import Mathlib.Data.FinEnum
import Mathlib.Data.List.Nodup
import Mathlib.Algebra.Order.BigOperators.Group.Finset

/-!
What group formation computes. A number of bears is feasible when hares can
fill the rest of the capacity exactly, one of them at least if the leader is a
bear. The down-counting loop finds the largest feasible number, and the group
is the leader, that many first bears and as many first hares as are missing.
None of the 32-bit operations wraps around.
-/
namespace HaresBears.LamportPolicy

/-- `k` bears of weight `bw` leave room for `place` hares and need at most `h`. -/
def Feasible (bw rem place h k : ℕ) : Prop := bw * k + place ≤ rem ∧ rem ≤ bw * k + h

section Loops

variable (policy : LamportPolicy)

theorem toNat_min (a b : UInt32) : (min a b).toNat = min a.toNat b.toNat := by
  rw [min_def, apply_ite UInt32.toNat, Nat.min_def]
  simp only [UInt32.le_iff_toNat_le]

/-- One round of the loop accepts exactly the feasible counts. The product and
the difference are exact because the guard before them holds. -/
theorem round_accepts (rem place b : UInt32) (h : ℕ) (hb : 1 ≤ policy.bearWeight.toNat) :
    (¬ b > rem / policy.bearWeight.toUInt32 ∧
      ¬ rem - b * policy.bearWeight.toUInt32 < place ∧
      ¬ (rem - b * policy.bearWeight.toUInt32).toNat > h) ↔
    Feasible policy.bearWeight.toNat rem.toNat place.toNat h b.toNat := by
  have hguard : ¬ b > rem / policy.bearWeight.toUInt32 ↔
      policy.bearWeight.toNat * b.toNat ≤ rem.toNat := by
    rw [gt_iff_lt, UInt32.lt_iff_toNat_lt, UInt32.toNat_div, UInt8.toNat_toUInt32, not_lt,
      Nat.le_div_iff_mul_le hb, Nat.mul_comm]
  rw [hguard]
  unfold Feasible
  by_cases hle : policy.bearWeight.toNat * b.toNat ≤ rem.toNat
  · have hrem := rem.toNat_lt
    have hmul : (b * policy.bearWeight.toUInt32).toNat = policy.bearWeight.toNat * b.toNat := by
      rw [UInt32.toNat_mul, UInt8.toNat_toUInt32, Nat.mul_comm]
      exact Nat.mod_eq_of_lt (by omega)
    have hsub : (rem - b * policy.bearWeight.toUInt32).toNat =
        rem.toNat - policy.bearWeight.toNat * b.toNat := by
      rw [UInt32.toNat_sub_of_le _ _ (by rw [UInt32.le_iff_toNat_le]; omega), hmul]
    rw [UInt32.lt_iff_toNat_lt, hsub]
    omega
  · omega

theorem findBears_spec (rem place : UInt32) (h : ℕ) {n : ℕ} (hb : 1 ≤ policy.bearWeight.toNat)
    (hn : n ≤ 2 ^ 32) :
    match policy.findBears rem place h n with
    | none => ∀ k < n, ¬ Feasible policy.bearWeight.toNat rem.toNat place.toNat h k
    | some b => b.toNat < n ∧
        Feasible policy.bearWeight.toNat rem.toNat place.toNat h b.toNat ∧
        ∀ k < n, b.toNat < k → ¬ Feasible policy.bearWeight.toNat rem.toNat place.toNat h k := by
  induction n with
  | zero => simp [findBears]
  | succ n ih =>
    have hlast : (UInt32.ofNat n).toNat = n := UInt32.toNat_ofNat_of_lt' hn
    have hround := round_accepts policy rem place (UInt32.ofNat n) h hb
    rw [hlast] at hround
    by_cases hf : Feasible policy.bearWeight.toNat rem.toNat place.toNat h n
    · obtain ⟨h1, h2, h3⟩ := hround.mpr hf
      have heq : policy.findBears rem place h (n + 1) = some (UInt32.ofNat n) := by
        simp only [findBears, if_neg h1, if_neg h2, if_neg h3]
      rw [heq]
      simp only [hlast]
      exact ⟨Nat.lt_succ_self n, hf, fun k hk hnk => absurd hk (by omega)⟩
    · have heq : policy.findBears rem place h (n + 1) = policy.findBears rem place h n := by
        by_contra hne
        apply hf
        apply hround.mp
        refine ⟨fun h1 => hne ?_, fun h2 => hne ?_, fun h3 => hne ?_⟩
        · simp only [findBears, if_pos h1]
        · simp only [findBears, if_pos h2, ite_self]
        · simp only [findBears, if_pos h3, ite_self]
      rw [heq]
      have hih := ih (by omega)
      cases hfound : policy.findBears rem place h n with
      | none =>
        rw [hfound] at hih
        intro k hk
        rcases Nat.lt_succ_iff_lt_or_eq.mp hk with hlt | rfl
        · exact hih k hlt
        · exact hf
      | some b =>
        rw [hfound] at hih
        refine ⟨Nat.lt_succ_of_lt hih.1, hih.2.1, ?_⟩
        intro k hk hbk
        rcases Nat.lt_succ_iff_lt_or_eq.mp hk with hlt | rfl
        · exact hih.2.2 k hlt hbk
        · exact hf

theorem addPid_new {chosen : List Pid} {pid : Pid} (h : pid ∉ chosen) :
    addPid chosen pid = (chosen ++ [pid], true) := if_neg h

/-- Fresh bears are all added, and the remaining capacity drops by their weight. -/
theorem takeBears_spec {chosen bears : List Pid} {rem : UInt32}
    (hnd : (chosen ++ bears).Nodup)
    (hfit : policy.bearWeight.toNat * bears.length ≤ rem.toNat) :
    (policy.takeBears chosen rem bears).1 = chosen ++ bears ∧
      (policy.takeBears chosen rem bears).2.toNat =
        rem.toNat - policy.bearWeight.toNat * bears.length := by
  unfold takeBears
  induction bears generalizing chosen rem with
  | nil => simp
  | cons pid bears ih =>
    have hnew : pid ∉ chosen := by
      intro hmem
      exact List.disjoint_of_nodup_append hnd hmem (List.mem_cons_self ..)
    rw [List.length_cons, Nat.mul_succ] at hfit
    have hsub : (rem - policy.bearWeight.toUInt32).toNat =
        rem.toNat - policy.bearWeight.toNat := by
      rw [UInt32.toNat_sub_of_le _ _ (by
        rw [UInt32.le_iff_toNat_le, UInt8.toNat_toUInt32]; omega), UInt8.toNat_toUInt32]
    have hnd' : ((chosen ++ [pid]) ++ bears).Nodup := by simpa using hnd
    have hrest := ih hnd' (hsub ▸ (by omega :
      policy.bearWeight.toNat * bears.length ≤ rem.toNat - policy.bearWeight.toNat))
    simp only [List.foldl_cons, addPid_new hnew]
    refine ⟨by simpa using hrest.1, ?_⟩
    rw [hrest.2, hsub, List.length_cons, Nat.mul_succ]
    omega

/-- Fresh hares are added until `needed` are taken; the counter does not wrap. -/
theorem takeHares_spec {chosen hares : List Pid} {needed taken : UInt32} {hig : Bool}
    (hnd : (chosen ++ hares).Nodup) (hle : taken.toNat ≤ needed.toNat)
    (henough : needed.toNat ≤ taken.toNat + hares.length) :
    takeHares needed chosen taken hig hares =
      (chosen ++ hares.take (needed.toNat - taken.toNat), needed,
        hig || decide (taken.toNat < needed.toNat)) := by
  induction hares generalizing chosen taken hig with
  | nil =>
    have heq : taken = needed := UInt32.toNat_inj.mp (by simpa using Nat.le_antisymm hle henough)
    simp [takeHares, heq]
  | cons pid hares ih =>
    unfold takeHares
    by_cases heq : taken = needed
    · simp [heq]
    · have hne : taken.toNat ≠ needed.toNat := fun hx => heq (UInt32.toNat_inj.mp hx)
      have hneeded := needed.toNat_lt
      have hnew : pid ∉ chosen := by
        intro hmem
        exact List.disjoint_of_nodup_append hnd hmem (List.mem_cons_self ..)
      have hsucc : (taken + 1).toNat = taken.toNat + 1 := by
        rw [UInt32.toNat_add, UInt32.toNat_one]
        exact Nat.mod_eq_of_lt (by omega)
      rw [List.length_cons] at henough
      rw [if_neg heq, addPid_new hnew, if_pos rfl, ih (by simpa using hnd)
        (by omega) (by omega), hsucc]
      have hcount : needed.toNat - taken.toNat = needed.toNat - (taken.toNat + 1) + 1 := by omega
      rw [hcount]
      have hlt : taken.toNat < needed.toNat := by omega
      simp [hlt]

end Loops

/-- The candidates other than the leader, split by species. -/
theorem mem_haresOf {policy : LamportPolicy} {rest : List PartyMember} {p : Pid} :
    p ∈ policy.haresOf rest ↔ ⟨p, policy.hareWeight.toUInt32⟩ ∈ rest := by
  unfold haresOf
  simp only [List.mem_map, List.mem_filter, decide_eq_true_eq]
  constructor
  · intro hex
    obtain ⟨c, ⟨hc, hw⟩, hp⟩ := hex
    rwa [← hp, ← hw]
  · intro h
    exact ⟨_, ⟨h, rfl⟩, rfl⟩

theorem mem_bearsOf {policy : LamportPolicy} {rest : List PartyMember} {p : Pid} :
    p ∈ policy.bearsOf rest ↔ policy.bearWeight ≠ policy.hareWeight ∧
      ⟨p, policy.bearWeight.toUInt32⟩ ∈ rest := by
  have hinj : policy.bearWeight.toUInt32 = policy.hareWeight.toUInt32 ↔
      policy.bearWeight = policy.hareWeight := by
    constructor
    · intro h
      have hn := congrArg UInt32.toNat h
      rw [UInt8.toNat_toUInt32, UInt8.toNat_toUInt32] at hn
      exact UInt8.toNat_inj.mp hn
    · exact fun h => by rw [h]
  unfold bearsOf
  simp only [List.mem_map, List.mem_filter, decide_eq_true_eq, ne_eq]
  constructor
  · intro hex
    obtain ⟨c, ⟨hc, hne, hw⟩, hp⟩ := hex
    rw [hw, hinj] at hne
    exact ⟨hne, by rwa [← hp, ← hw]⟩
  · intro hex
    obtain ⟨hne, h⟩ := hex
    exact ⟨_, ⟨h, fun hx => hne (hinj.mp hx), rfl⟩, rfl⟩

section Membership

variable {policy : LamportPolicy}

theorem mem_addPid {chosen : List Pid} {p : Pid} (pid : Pid) (h : p ∈ chosen) :
    p ∈ (addPid chosen pid).1 := by
  unfold addPid
  split
  · exact h
  · exact List.mem_append_left _ h

theorem mem_takeBears {chosen bears : List Pid} {rem : UInt32} {p : Pid} (h : p ∈ chosen) :
    p ∈ (policy.takeBears chosen rem bears).1 := by
  unfold takeBears
  induction bears generalizing chosen rem with
  | nil => exact h
  | cons pid bears ih => exact ih (mem_addPid pid h)

theorem mem_takeHares {needed taken : UInt32} {hig : Bool} {chosen hares : List Pid} {p : Pid}
    (h : p ∈ chosen) : p ∈ (takeHares needed chosen taken hig hares).1 := by
  induction hares generalizing chosen taken hig with
  | nil => exact h
  | cons pid hares ih =>
    unfold takeHares
    split
    · exact h
    · split
      · exact ih (mem_addPid pid h)
      · exact ih h

/-- Whatever the policy and the candidates, a group that is formed contains the
first candidate. -/
theorem leader_mem_of_formed {leader : PartyMember} {rest : List PartyMember}
    (h : (policy.tryFormGroup (leader :: rest)).1 = true) :
    leader.pid ∈ (policy.tryFormGroup (leader :: rest)).2 := by
  have hselect : ∀ remaining hig hares bears b,
      (policy.selectGroup leader remaining hig hares bears b).1 = true →
      leader.pid ∈ (policy.selectGroup leader remaining hig hares bears b).2 := by
    intro remaining hig hares bears b hs
    unfold selectGroup at hs ⊢
    dsimp only at hs ⊢
    split_ifs at hs ⊢
    exact mem_takeHares (mem_takeBears (List.mem_singleton.mpr rfl))
  unfold tryFormGroup at h ⊢
  dsimp only at h ⊢
  split_ifs at h ⊢
  all_goals
    split at h
    · cases h
    · exact hselect _ _ _ _ _ h

end Membership

section Selection

variable (policy : LamportPolicy) {leader : PartyMember} {rest : List PartyMember}

/-- Leader, bears and hares of a candidate list without repeated pids are all
different. -/
theorem selection_nodup (hnd : ((leader :: rest).map PartyMember.pid).Nodup) :
    (leader.pid :: policy.bearsOf rest ++ policy.haresOf rest).Nodup := by
  rw [List.map_cons, List.nodup_cons] at hnd
  obtain ⟨hl, hr⟩ := hnd
  have hb : (policy.bearsOf rest).Sublist (rest.map PartyMember.pid) :=
    List.filter_sublist.map _
  have hh : (policy.haresOf rest).Sublist (rest.map PartyMember.pid) :=
    List.filter_sublist.map _
  rw [List.cons_append, List.nodup_cons, List.mem_append, not_or]
  refine ⟨⟨fun hx => hl (hb.subset hx), fun hx => hl (hh.subset hx)⟩, ?_⟩
  refine List.nodup_append.mpr ⟨hr.sublist hb, hr.sublist hh, ?_⟩
  intro p hp q hq hpq
  subst hpq
  obtain ⟨hne, hp'⟩ := mem_bearsOf.mp hp
  have heq := (List.nodup_map_iff_inj_on (List.Nodup.of_map _ hr)).mp hr
    _ hp' _ (mem_haresOf.mp hq) rfl
  have hw := congrArg (fun c => c.w.toNat) heq
  simp only [UInt8.toNat_toUInt32] at hw
  exact hne (UInt8.toNat_inj.mp hw)

/-- Distinct pids fit into 32 bits, and so does their number. -/
theorem length_le_of_nodup {l : List Pid} (h : l.Nodup) : l.length ≤ 2 ^ 32 := by
  have hmap : (l.map UInt32.toNat).Nodup := h.map (fun _ _ => UInt32.toNat_inj.mp)
  have hsub : (l.map UInt32.toNat).toFinset ⊆ Finset.range (2 ^ 32) := by
    intro n hn
    obtain ⟨p, -, rfl⟩ := List.mem_map.mp (List.mem_toFinset.mp hn)
    exact Finset.mem_range.mpr p.toNat_lt
  have hcard := Finset.card_le_card hsub
  rwa [List.toFinset_card_of_nodup hmap, List.length_map, Finset.card_range] at hcard

theorem bearsOf_length_lt (hnd : ((leader :: rest).map PartyMember.pid).Nodup) :
    (policy.bearsOf rest).length < 2 ^ 32 := by
  have h := (selection_nodup policy hnd).sublist (List.sublist_append_left ..)
  exact length_le_of_nodup h

def placeFor (leader : PartyMember) : ℕ := if leader.w = 1 then 0 else 1

def FeasibleFor (leader : PartyMember) (rest : List PartyMember) (k : ℕ) : Prop :=
  Feasible policy.bearWeight.toNat (policy.capacity.toNat - leader.w.toNat) (placeFor leader)
    (policy.haresOf rest).length k

def groupWith (leader : PartyMember) (rest : List PartyMember) (k : ℕ) : List Pid :=
  leader.pid :: (policy.bearsOf rest).take k ++ (policy.haresOf rest).take
    (policy.capacity.toNat - leader.w.toNat - policy.bearWeight.toNat * k)

variable {policy}

/-- The outcome of the search: no feasible number of bears, or the largest one. -/
inductive Outcome (policy : LamportPolicy) (leader : PartyMember) (rest : List PartyMember) :
    Bool × List Pid → Prop
  | tooHeavy : policy.capacity.toNat < leader.w.toNat → Outcome policy leader rest (false, [])
  | infeasible : leader.w.toNat ≤ policy.capacity.toNat →
      (∀ k ≤ (policy.bearsOf rest).length, ¬ policy.FeasibleFor leader rest k) →
      Outcome policy leader rest (false, [])
  | formed (k : ℕ) : leader.w.toNat ≤ policy.capacity.toNat →
      k ≤ (policy.bearsOf rest).length → policy.FeasibleFor leader rest k →
      (∀ j ≤ (policy.bearsOf rest).length, k < j → ¬ policy.FeasibleFor leader rest j) →
      Outcome policy leader rest (true, policy.groupWith leader rest k)

/-- The selection after a successful search adds every pid it meets. -/
theorem selectGroup_eq (hnd : ((leader :: rest).map PartyMember.pid).Nodup)
    {b remaining : UInt32}
    (hrem : remaining.toNat = policy.capacity.toNat - leader.w.toNat)
    (hle : b.toNat ≤ (policy.bearsOf rest).length) (hf : policy.FeasibleFor leader rest b.toNat) :
    policy.selectGroup leader remaining (decide (leader.w = 1)) (policy.haresOf rest)
      (policy.bearsOf rest) b = (true, policy.groupWith leader rest b.toNat) := by
  have hall := selection_nodup policy hnd
  obtain ⟨hf1, hf2⟩ := hf
  have hlen : ((policy.bearsOf rest).take b.toNat).length = b.toNat := by
    rw [List.length_take, Nat.min_eq_left hle]
  have hsub : ((leader.pid :: (policy.bearsOf rest).take b.toNat) ++
      policy.haresOf rest).Nodup := by
    refine hall.sublist (List.Sublist.append_right ?_ _)
    exact (List.take_sublist ..).cons_cons _
  have hfit : policy.bearWeight.toNat * ((policy.bearsOf rest).take b.toNat).length ≤
      remaining.toNat := by
    rw [hlen, hrem]
    omega
  have hfresh : ([leader.pid] ++ (policy.bearsOf rest).take b.toNat).Nodup := hsub.of_append_left
  have hbears := takeBears_spec policy hfresh hfit
  rw [hlen, hrem] at hbears
  obtain ⟨hchosen, hneeded⟩ := hbears
  have hlead : (addPid [] leader.pid).1 = [leader.pid] := rfl
  unfold selectGroup
  rw [hlead]
  generalize hpicked : policy.takeBears [leader.pid] remaining
    ((policy.bearsOf rest).take b.toNat) = picked at hchosen hneeded ⊢
  have hnd' : (picked.1 ++ policy.haresOf rest).Nodup := by rwa [hchosen]
  have henough : picked.2.toNat ≤ (0 : UInt32).toNat + (policy.haresOf rest).length := by
    rw [hneeded, UInt32.toNat_zero]
    omega
  have hhares : takeHares picked.2 picked.1 0 (decide (leader.w = 1)) (policy.haresOf rest) = _ :=
    takeHares_spec hnd' (Nat.zero_le _) henough
  have hin : (decide (leader.w = 1) || decide ((0 : UInt32).toNat < picked.2.toNat)) = true := by
    rw [hneeded]
    by_cases hw : leader.w = 1
    · simp [hw]
    · have hplace : placeFor leader = 1 := if_neg hw
      have hpos : 0 < policy.capacity.toNat - leader.w.toNat -
          policy.bearWeight.toNat * b.toNat := by
        omega
      simp [hpos]
  rw [hin] at hhares
  dsimp only
  rw [hhares, hchosen, hneeded]
  simp [groupWith]

/-- `b_max + 1` does not wrap: a first candidate has a weight. -/
theorem bMax_lt (hlw : 1 ≤ leader.w.toNat) (hle : leader.w.toNat ≤ policy.capacity.toNat) :
    (min ((policy.capacity - leader.w) / policy.bearWeight.toUInt32)
      (UInt32.ofNat (policy.bearsOf rest).length)).toNat + 1 < 2 ^ 32 := by
  have hquot : (policy.capacity.toNat - leader.w.toNat) / policy.bearWeight.toNat ≤
      policy.capacity.toNat - leader.w.toNat := Nat.div_le_self _ _
  have hcapacity := policy.capacity.toNat_lt
  rw [toNat_min, UInt32.toNat_div, UInt8.toNat_toUInt32,
    UInt32.toNat_sub_of_le _ _ (UInt32.le_iff_toNat_le.mpr hle)]
  omega

/-- The cast of the list length is exact too. -/
theorem bMax_succ (hlw : 1 ≤ leader.w.toNat)
    (hle : leader.w.toNat ≤ policy.capacity.toNat)
    (hnd : ((leader :: rest).map PartyMember.pid).Nodup) :
    (min ((policy.capacity - leader.w) / policy.bearWeight.toUInt32)
        (UInt32.ofNat (policy.bearsOf rest).length) + 1).toNat =
      min ((policy.capacity.toNat - leader.w.toNat) / policy.bearWeight.toNat)
        (policy.bearsOf rest).length + 1 := by
  have hbears : (UInt32.ofNat (policy.bearsOf rest).length).toNat =
      (policy.bearsOf rest).length :=
    UInt32.toNat_ofNat_of_lt' (bearsOf_length_lt policy hnd)
  rw [UInt32.toNat_add, UInt32.toNat_one, Nat.mod_eq_of_lt (bMax_lt hlw hle), toNat_min,
    UInt32.toNat_div, UInt8.toNat_toUInt32, hbears,
    UInt32.toNat_sub_of_le _ _ (UInt32.le_iff_toNat_le.mpr hle)]

/-- The search finds the largest feasible number of bears, if there is one: no more
than `b_max` are feasible. -/
theorem findBears_outcome {place : UInt32} (hb : 1 ≤ policy.bearWeight.toNat)
    (hlw : 1 ≤ leader.w.toNat) (hle : leader.w.toNat ≤ policy.capacity.toNat)
    (hnd : ((leader :: rest).map PartyMember.pid).Nodup) (hplace : place.toNat = placeFor leader) :
    match policy.findBears (policy.capacity - leader.w) place (policy.haresOf rest).length
      (min ((policy.capacity - leader.w) / policy.bearWeight.toUInt32)
        (UInt32.ofNat (policy.bearsOf rest).length) + 1).toNat with
    | none => ∀ k ≤ (policy.bearsOf rest).length, ¬ policy.FeasibleFor leader rest k
    | some b => b.toNat ≤ (policy.bearsOf rest).length ∧ policy.FeasibleFor leader rest b.toNat ∧
        ∀ k ≤ (policy.bearsOf rest).length, b.toNat < k → ¬ policy.FeasibleFor leader rest k := by
  have hrem : (policy.capacity - leader.w).toNat = policy.capacity.toNat - leader.w.toNat :=
    UInt32.toNat_sub_of_le _ _ (UInt32.le_iff_toNat_le.mpr hle)
  have hbelow : ∀ k ≤ (policy.bearsOf rest).length, policy.FeasibleFor leader rest k →
      k < min ((policy.capacity.toNat - leader.w.toNat) / policy.bearWeight.toNat)
        (policy.bearsOf rest).length + 1 := by
    intro k hk hf
    have hq := (Nat.le_div_iff_mul_le hb).mpr
      (show k * policy.bearWeight.toNat ≤ policy.capacity.toNat - leader.w.toNat by
        rw [Nat.mul_comm]
        exact Nat.le_of_add_right_le hf.1)
    exact Nat.lt_succ_of_le (Nat.le_min.mpr ⟨hq, hk⟩)
  have hsize := bearsOf_length_lt policy hnd
  have hsearch := findBears_spec policy (policy.capacity - leader.w) place
    (policy.haresOf rest).length (n := min ((policy.capacity.toNat - leader.w.toNat) /
      policy.bearWeight.toNat) (policy.bearsOf rest).length + 1) hb (by omega)
  rw [hrem, hplace] at hsearch
  rw [bMax_succ hlw hle hnd]
  cases hfound : policy.findBears (policy.capacity - leader.w) place (policy.haresOf rest).length
      (min ((policy.capacity.toNat - leader.w.toNat) / policy.bearWeight.toNat)
        (policy.bearsOf rest).length + 1) with
  | none =>
    rw [hfound] at hsearch
    exact fun k hk hf => hsearch k (hbelow k hk hf) hf
  | some b =>
    rw [hfound] at hsearch
    obtain ⟨hlt, hf, hmax⟩ := hsearch
    have hb' : b.toNat ≤ (policy.bearsOf rest).length := by omega
    exact ⟨hb', hf, fun j hj hbj hfj => hmax j (hbelow j hj hfj) hbj hfj⟩

theorem tryFormGroup_outcome (hh : policy.hareWeight = 1) (hb : 1 ≤ policy.bearWeight.toNat)
    (hcap : policy.capacity ≠ 0) (hlw : 1 ≤ leader.w.toNat)
    (hnd : ((leader :: rest).map PartyMember.pid).Nodup) :
    Outcome policy leader rest (policy.tryFormGroup (leader :: rest)) := by
  have hone : (1 : UInt8).toUInt32 = 1 := rfl
  unfold tryFormGroup
  simp only [hcap, if_false, hh, ne_eq, not_true_eq_false, hone]
  by_cases hheavy : leader.w > policy.capacity
  · rw [if_pos hheavy]
    exact .tooHeavy (UInt32.lt_iff_toNat_lt.mp hheavy)
  rw [if_neg hheavy]
  have hle : leader.w.toNat ≤ policy.capacity.toNat := by
    rw [gt_iff_lt, UInt32.lt_iff_toNat_lt] at hheavy
    omega
  have hrem : (policy.capacity - leader.w).toNat = policy.capacity.toNat - leader.w.toNat :=
    UInt32.toNat_sub_of_le _ _ (UInt32.le_iff_toNat_le.mpr hle)
  have hplace : (if decide (leader.w = 1) = true then (0 : UInt32) else 1).toNat =
      placeFor leader := by
    by_cases hw : leader.w = 1 <;> simp [placeFor, hw]
  generalize (if decide (leader.w = 1) = true then (0 : UInt32) else 1) = place at hplace ⊢
  by_cases hnone : (!decide (leader.w = 1) && (policy.haresOf rest).isEmpty) = true
  · rw [if_pos hnone]
    refine .infeasible hle (fun k _ hf => ?_)
    obtain ⟨hw, hempty⟩ := Bool.and_eq_true_iff.mp hnone
    have hpl : placeFor leader = 1 := if_neg (by simpa using hw)
    have hlen : (policy.haresOf rest).length = 0 := by simpa using hempty
    obtain ⟨h1, h2⟩ := hf
    omega
  rw [if_neg hnone]
  by_cases hroom : policy.capacity - leader.w < place
  · rw [if_pos hroom]
    refine .infeasible hle (fun k _ hf => ?_)
    rw [UInt32.lt_iff_toNat_lt, hrem, hplace] at hroom
    obtain ⟨h1, -⟩ := hf
    omega
  rw [if_neg hroom]
  have hsearch := findBears_outcome hb hlw hle hnd hplace
  cases hfound : policy.findBears (policy.capacity - leader.w) place (policy.haresOf rest).length
      (min ((policy.capacity - leader.w) / policy.bearWeight.toUInt32)
        (UInt32.ofNat (policy.bearsOf rest).length) + 1).toNat with
  | none =>
    rw [hfound] at hsearch
    exact .infeasible hle hsearch
  | some b =>
    rw [hfound] at hsearch
    obtain ⟨hb', hf, hmax⟩ := hsearch
    dsimp only
    rw [selectGroup_eq hnd hrem hb' hf]
    exact .formed b.toNat hle hb' hf hmax

end Selection

section Group

variable {policy : LamportPolicy} {leader : PartyMember} {rest : List PartyMember} {k : ℕ}

theorem groupWith_nodup (hnd : ((leader :: rest).map PartyMember.pid).Nodup) :
    (policy.groupWith leader rest k).Nodup := by
  refine (selection_nodup policy hnd).sublist ?_
  exact ((List.take_sublist ..).cons_cons _).append (List.take_sublist ..)

theorem mem_groupWith {p : Pid} (h : p ∈ policy.groupWith leader rest k) :
    p ∈ (leader :: rest).map PartyMember.pid := by
  rcases List.mem_append.mp h with h | h
  · rcases List.mem_cons.mp h with rfl | h
    · exact List.mem_cons_self ..
    · have hb := mem_bearsOf.mp (List.mem_of_mem_take h)
      exact List.mem_cons_of_mem _ (List.mem_map.mpr ⟨_, hb.2, rfl⟩)
  · have hh := mem_haresOf.mp (List.mem_of_mem_take h)
    exact List.mem_cons_of_mem _ (List.mem_map.mpr ⟨_, hh, rfl⟩)

private theorem sum_map_const {l : List Pid} {wt : Pid → ℕ} {c : ℕ} (h : ∀ p ∈ l, wt p = c) :
    (l.map wt).sum = c * l.length := by
  rw [List.map_congr_left h, List.map_const', List.sum_replicate_nat, Nat.mul_comm]

/-- The group fills the capacity exactly, for every weight function that agrees
with the candidates. -/
theorem groupWith_weight (hh : policy.hareWeight = 1) (wt : Pid → ℕ)
    (hwt : ∀ c ∈ leader :: rest, wt c.pid = c.w.toNat)
    (hle : leader.w.toNat ≤ policy.capacity.toNat)
    (hk : k ≤ (policy.bearsOf rest).length) (hf : policy.FeasibleFor leader rest k) :
    ((policy.groupWith leader rest k).map wt).sum = policy.capacity.toNat := by
  obtain ⟨hf1, hf2⟩ := hf
  have hbears : ∀ p ∈ (policy.bearsOf rest).take k, wt p = policy.bearWeight.toNat := by
    intro p hp
    have hc := hwt _ (List.mem_cons_of_mem _ (mem_bearsOf.mp (List.mem_of_mem_take hp)).2)
    rwa [UInt8.toNat_toUInt32] at hc
  have hhares : ∀ p ∈ (policy.haresOf rest).take
      (policy.capacity.toNat - leader.w.toNat - policy.bearWeight.toNat * k), wt p = 1 := by
    intro p hp
    have hc := hwt _ (List.mem_cons_of_mem _ (mem_haresOf.mp (List.mem_of_mem_take hp)))
    rwa [hh] at hc
  have hlead : wt leader.pid = leader.w.toNat := hwt _ (List.mem_cons_self ..)
  unfold groupWith
  rw [List.map_append, List.sum_append, List.map_cons, List.sum_cons, hlead,
    sum_map_const hbears, sum_map_const hhares, List.length_take, List.length_take,
    Nat.min_eq_left hk, Nat.min_eq_left (by omega)]
  omega

/-- A hare is in the group: the leader, or one for whom a place was kept. -/
theorem groupWith_hare (hh : policy.hareWeight = 1)
    (hf : policy.FeasibleFor leader rest k) :
    ∃ c ∈ leader :: rest, c.w = 1 ∧ c.pid ∈ policy.groupWith leader rest k := by
  obtain ⟨hf1, hf2⟩ := hf
  by_cases hw : leader.w = 1
  · exact ⟨leader, List.mem_cons_self .., hw, List.mem_append_left _ (List.mem_cons_self ..)⟩
  · have hpl : placeFor leader = 1 := if_neg hw
    have hlen : 0 < ((policy.haresOf rest).take
        (policy.capacity.toNat - leader.w.toNat - policy.bearWeight.toNat * k)).length := by
      rw [List.length_take]
      omega
    obtain ⟨p, hp⟩ := List.exists_mem_of_length_pos hlen
    have hc := mem_haresOf.mp (List.mem_of_mem_take hp)
    rw [hh] at hc
    exact ⟨_, List.mem_cons_of_mem _ hc, rfl, List.mem_append_right _ hp⟩

end Group

def Fills (policy : LamportPolicy) (party : Finset PartyMember) : Prop :=
  ∑ c ∈ party, c.w.toNat = policy.capacity.toNat ∧ ∃ c ∈ party, c.w = 1

def bearsAmong (party : Finset PartyMember) : Finset PartyMember := party.filter (¬ ·.w = 1)

section Completeness

variable {policy : LamportPolicy} {leader : PartyMember} {rest : List PartyMember}

/-- Bears and hares of a set of candidates, counted. -/
theorem exists_counts (hh : policy.hareWeight = 1)
    (hw : ∀ c ∈ rest, c.w = 1 ∨ c.w = policy.bearWeight.toUInt32)
    {party : Finset PartyMember} (hsub : ∀ c ∈ party, c ∈ rest) :
    ∃ i, i ≤ (policy.haresOf rest).length ∧
      (bearsAmong party).card ≤ (policy.bearsOf rest).length ∧
      ∑ c ∈ party, c.w.toNat = policy.bearWeight.toNat * (bearsAmong party).card + i ∧
      (0 < i ↔ ∃ c ∈ party, c.w = 1) := by
  have hone : (1 : UInt8).toUInt32 = 1 := rfl
  unfold bearsAmong
  refine ⟨(party.filter (fun c => c.w = 1)).card, ?_, ?_, ?_, ?_⟩
  · unfold haresOf
    rw [List.length_map, hh, hone]
    refine le_trans (Finset.card_le_card ?_) (List.toFinset_card_le _)
    intro c hc
    rw [Finset.mem_filter] at hc
    simp [hsub c hc.1, hc.2]
  · unfold bearsOf
    rw [List.length_map, hh, hone]
    refine le_trans (Finset.card_le_card ?_) (List.toFinset_card_le _)
    intro c hc
    rw [Finset.mem_filter] at hc
    have hbear := (hw c (hsub c hc.1)).resolve_left hc.2
    rw [List.mem_toFinset, List.mem_filter]
    exact ⟨hsub c hc.1, by simpa [hbear] using hbear ▸ hc.2⟩
  · rw [← Finset.sum_filter_add_sum_filter_not party (fun c => c.w = 1), Nat.add_comm]
    congr 1
    · rw [Nat.mul_comm]
      refine Finset.sum_const_nat (fun c hc => ?_)
      rw [Finset.mem_filter] at hc
      rw [(hw c (hsub c hc.1)).resolve_left hc.2, UInt8.toNat_toUInt32]
    · rw [Finset.card_eq_sum_ones]
      refine Finset.sum_congr rfl (fun c hc => ?_)
      rw [(Finset.mem_filter.mp hc).2, UInt32.toNat_one]
  · rw [Finset.card_pos]
    constructor
    · intro hex
      obtain ⟨c, hc⟩ := hex
      exact ⟨c, (Finset.mem_filter.mp hc).1, (Finset.mem_filter.mp hc).2⟩
    · intro hex
      obtain ⟨c, hc, hcw⟩ := hex
      exact ⟨c, Finset.mem_filter.mpr ⟨hc, hcw⟩⟩

/-- Completeness of the search: a possible party that contains the first
candidate has a feasible number of other bears. -/
theorem feasible_of_fills (hh : policy.hareWeight = 1)
    (hw : ∀ c ∈ leader :: rest, c.w = 1 ∨ c.w = policy.bearWeight.toUInt32)
    {party : Finset PartyMember} (hsub : ∀ c ∈ party, c ∈ leader :: rest)
    (hlead : leader ∈ party) (hfill : policy.Fills party) :
    leader.w.toNat ≤ policy.capacity.toNat ∧
      (bearsAmong (party.erase leader)).card ≤ (policy.bearsOf rest).length ∧
      policy.FeasibleFor leader rest (bearsAmong (party.erase leader)).card := by
  obtain ⟨hsum, c, hc, hcw⟩ := hfill
  have hrest : ∀ d ∈ party.erase leader, d ∈ rest := by
    intro d hd
    obtain ⟨hne, hd⟩ := Finset.mem_erase.mp hd
    exact (List.mem_cons.mp (hsub d hd)).resolve_left hne
  obtain ⟨i, hi, hj, htotal, hpos⟩ := exists_counts hh
    (fun d hd => hw d (List.mem_cons_of_mem _ hd)) hrest
  have hsplit := Finset.add_sum_erase party (fun c => c.w.toNat) hlead
  have hplace : placeFor leader ≤ i := by
    unfold placeFor
    split_ifs with hl
    · exact Nat.zero_le i
    · have hne : c ≠ leader := fun hx => hl (hx ▸ hcw)
      exact hpos.mpr ⟨c, Finset.mem_erase.mpr ⟨hne, hc⟩, hcw⟩
  refine ⟨by omega, hj, ?_, ?_⟩ <;> omega

/-- The exchange argument: above the weight of a bear, a possible party without
the first candidate can be changed into one with it. A hare replaces a hare, a
bear replaces a bear, and in a party of hares only a bear replaces as many
hares as it weighs. -/
theorem feasible_of_exchange (hh : policy.hareWeight = 1)
    (hw : ∀ c ∈ leader :: rest, c.w = 1 ∨ c.w = policy.bearWeight.toUInt32)
    (hroom : leader.w = 1 ∨ policy.bearWeight.toNat < policy.capacity.toNat)
    {party : Finset PartyMember} (hsub : ∀ c ∈ party, c ∈ leader :: rest)
    (hfill : policy.Fills party) :
    leader.w.toNat ≤ policy.capacity.toNat ∧
      ∃ k ≤ (policy.bearsOf rest).length, policy.FeasibleFor leader rest k := by
  by_cases hlead : leader ∈ party
  · obtain ⟨hle, hk, hf⟩ := feasible_of_fills hh hw hsub hlead hfill
    exact ⟨hle, _, hk, hf⟩
  obtain ⟨hsum, hhare⟩ := hfill
  have hrest : ∀ d ∈ party, d ∈ rest := by
    intro d hd
    refine (List.mem_cons.mp (hsub d hd)).resolve_left ?_
    intro hx
    exact hlead (hx ▸ hd)
  obtain ⟨i, hi, hj, htotal, hpos⟩ := exists_counts hh
    (fun d hd => hw d (List.mem_cons_of_mem _ hd)) hrest
  generalize (bearsAmong party).card = j at hj htotal
  have hi0 := hpos.mpr hhare
  rcases hw leader (List.mem_cons_self ..) with hl | hl
  · have hlw : leader.w.toNat = 1 := by rw [hl, UInt32.toNat_one]
    have hpl : placeFor leader = 0 := if_pos hl
    refine ⟨by omega, j, hj, ?_, ?_⟩ <;> omega
  · have hlw : leader.w.toNat = policy.bearWeight.toNat := by rw [hl, UInt8.toNat_toUInt32]
    have hpl : placeFor leader ≤ 1 := by
      unfold placeFor
      split_ifs <;> omega
    have hle : policy.bearWeight.toNat ≤ policy.capacity.toNat := by
      rcases hroom with h1 | hlt
      · have hlw1 : leader.w.toNat = 1 := by rw [h1, UInt32.toNat_one]
        omega
      · omega
    cases j with
    | zero =>
      have hsmall : placeFor leader + policy.bearWeight.toNat ≤ policy.capacity.toNat := by
        rcases hroom with h1 | hlt
        · have hpl0 : placeFor leader = 0 := if_pos h1
          omega
        · omega
      refine ⟨by omega, 0, Nat.zero_le _, ?_, ?_⟩ <;> omega
    | succ j =>
      rw [Nat.mul_succ] at htotal
      refine ⟨by omega, j, by omega, ?_, ?_⟩ <;> omega

end Completeness

end HaresBears.LamportPolicy
