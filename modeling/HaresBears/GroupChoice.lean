import HaresBears.GroupArithmetic

/-!
Which group the policy chooses. It finds one exactly when the first candidate can
be completed to a party, takes as many bears as any party with the first candidate
has, and passes nobody over in favour of a later candidate of the same species.
Forcing the first candidate into the group blocks nobody if the capacity exceeds
the weight of a bear, and only then.
-/
namespace HaresBears.LamportPolicy

structure LedParty (policy : LamportPolicy) (candidates : List PartyMember)
    (party : Finset PartyMember) : Prop where
  drawn : ∀ c ∈ party, c ∈ candidates
  led : ∃ leader ∈ party, candidates.head? = some leader
  fills : policy.Fills party

def membersOf (candidates : List PartyMember) (group : List Pid) : Finset PartyMember :=
  candidates.toFinset.filter (·.pid ∈ group)

theorem mem_membersOf {candidates : List PartyMember} {group : List Pid} {c : PartyMember} :
    c ∈ membersOf candidates group ↔ c ∈ candidates ∧ c.pid ∈ group := by
  simp [membersOf]

section Choice

variable {policy : LamportPolicy} {leader : PartyMember} {rest : List PartyMember} {k : ℕ}

/-- Pids stand for candidates: weighing the members is weighing their pids. -/
theorem sum_membersOf {candidates : List PartyMember} {group : List Pid}
    (hnd : (candidates.map PartyMember.pid).Nodup) (hg : group.Nodup)
    (hsub : ∀ p ∈ group, p ∈ candidates.map PartyMember.pid) :
    ∃ wt : Pid → ℕ, (∀ c ∈ candidates, wt c.pid = c.w.toNat) ∧
      ∑ c ∈ membersOf candidates group, c.w.toNat = (group.map wt).sum := by
  have hinj : ∀ c ∈ candidates, ∀ d ∈ candidates, c.pid = d.pid → c = d :=
    fun c hc d hd => (List.nodup_map_iff_inj_on hnd.of_map).mp hnd c hc d hd
  have himage : (membersOf candidates group).image PartyMember.pid = group.toFinset := by
    ext p
    rw [Finset.mem_image, List.mem_toFinset]
    constructor
    · rintro ⟨c, hc, rfl⟩
      exact (mem_membersOf.mp hc).2
    · intro hp
      obtain ⟨c, hc, rfl⟩ := List.mem_map.mp (hsub p hp)
      exact ⟨c, mem_membersOf.mpr ⟨hc, hp⟩, rfl⟩
  let wt : Pid → ℕ := fun p => ∑ c ∈ candidates.toFinset.filter (·.pid = p), c.w.toNat
  have hwt : ∀ c ∈ candidates, wt c.pid = c.w.toNat := by
    intro c hc
    have hone : candidates.toFinset.filter (·.pid = c.pid) = {c} := by
      ext d
      rw [Finset.mem_filter, List.mem_toFinset, Finset.mem_singleton]
      constructor
      · exact fun hd => hinj d hd.1 c hc hd.2
      · rintro rfl
        exact ⟨hc, rfl⟩
    change ∑ d ∈ candidates.toFinset.filter (·.pid = c.pid), d.w.toNat = c.w.toNat
    rw [hone, Finset.sum_singleton]
  refine ⟨wt, hwt, ?_⟩
  calc
    _ = ∑ c ∈ membersOf candidates group, wt c.pid :=
      Finset.sum_congr rfl (fun c hc => (hwt c (mem_membersOf.mp hc).1).symm)
    _ = ∑ p ∈ (membersOf candidates group).image PartyMember.pid, wt p := by
      refine (Finset.sum_image ?_).symm
      intro c hc d hd
      exact hinj c (mem_membersOf.mp hc).1 d (mem_membersOf.mp hd).1
    _ = (group.map wt).sum := by rw [himage, List.sum_toFinset wt hg]

/-- The group the search returns is a party with the first candidate. -/
theorem ledParty_groupWith (hh : policy.hareWeight = 1)
    (hnd : ((leader :: rest).map PartyMember.pid).Nodup)
    (hle : leader.w.toNat ≤ policy.capacity.toNat)
    (hk : k ≤ (policy.bearsOf rest).length) (hf : policy.FeasibleFor leader rest k) :
    policy.LedParty (leader :: rest) (membersOf (leader :: rest)
      (policy.groupWith leader rest k)) := by
  refine ⟨fun c hc => (mem_membersOf.mp hc).1, ?_, ?_, ?_⟩
  · refine ⟨leader, mem_membersOf.mpr ⟨List.mem_cons_self .., ?_⟩, rfl⟩
    exact List.mem_append_left _ (List.mem_cons_self ..)
  · obtain ⟨wt, hwt, hsum⟩ := sum_membersOf hnd (groupWith_nodup (k := k) hnd)
      (fun p hp => mem_groupWith hp)
    rw [hsum]
    exact groupWith_weight hh wt hwt hle hk hf
  · obtain ⟨c, hc, hw, hg⟩ := groupWith_hare hh hf
    exact ⟨c, mem_membersOf.mpr ⟨hc, hg⟩, hw⟩

/-- The first candidate completes to a party exactly if some number of bears is
feasible. -/
theorem Outcome.formed_iff (hh : policy.hareWeight = 1)
    (hnd : ((leader :: rest).map PartyMember.pid).Nodup)
    (hw : ∀ c ∈ leader :: rest, c.w = 1 ∨ c.w = policy.bearWeight.toUInt32)
    {result : Bool × List Pid} (hout : Outcome policy leader rest result) :
    result.1 = true ↔ ∃ party, policy.LedParty (leader :: rest) party := by
  cases hout with
  | tooHeavy hlt =>
    refine ⟨fun h => (nomatch h), ?_⟩
    rintro ⟨party, hdrawn, ⟨c, hc, hhead⟩, hfill⟩
    obtain rfl := Option.some.inj hhead
    have hle := (feasible_of_fills hh hw hdrawn hc hfill).1
    omega
  | infeasible hle hno =>
    refine ⟨fun h => (nomatch h), ?_⟩
    rintro ⟨party, hdrawn, ⟨c, hc, hhead⟩, hfill⟩
    obtain rfl := Option.some.inj hhead
    obtain ⟨-, hk, hf⟩ := feasible_of_fills hh hw hdrawn hc hfill
    exact absurd hf (hno _ hk)
  | formed k hle hk hf _ =>
    exact ⟨fun _ => ⟨_, ledParty_groupWith hh hnd hle hk hf⟩, fun _ => rfl⟩

end Choice

section Correctness

variable {policy : LamportPolicy} {candidates : List PartyMember}

theorem weight_pos (hb : 1 ≤ policy.bearWeight.toNat) {c : PartyMember}
    (hw : c.w = 1 ∨ c.w = policy.bearWeight.toUInt32) : 1 ≤ c.w.toNat := by
  rcases hw with h | h
  · rw [h, UInt32.toNat_one]
  · rwa [h, UInt8.toNat_toUInt32]

theorem bearWeight_ne_one (hb : 2 ≤ policy.bearWeight.toNat) :
    policy.bearWeight.toUInt32 ≠ 1 := by
  intro hone
  have hn := congrArg UInt32.toNat hone
  rw [UInt8.toNat_toUInt32, UInt32.toNat_one] at hn
  omega

theorem outcome_of_weights (hh : policy.hareWeight = 1) (hb : 1 ≤ policy.bearWeight.toNat)
    {leader : PartyMember} {rest : List PartyMember}
    (hnd : ((leader :: rest).map PartyMember.pid).Nodup)
    (hw : ∀ c ∈ leader :: rest, c.w = 1 ∨ c.w = policy.bearWeight.toUInt32) :
    Outcome policy leader rest (policy.tryFormGroup (leader :: rest)) := by
  have hlw := weight_pos hb (hw leader (List.mem_cons_self ..))
  by_cases hcap : policy.capacity = 0
  · have heq : policy.tryFormGroup (leader :: rest) = (false, []) := by
      simp [tryFormGroup, hcap]
    rw [heq]
    refine .tooHeavy ?_
    rw [hcap, UInt32.toNat_zero]
    exact hlw
  · exact tryFormGroup_outcome hh hb hcap hlw hnd

/-- Soundness, completeness and exact arithmetic of the search. -/
theorem tryFormGroup_sound_complete (hh : policy.hareWeight = 1)
    (hb : 1 ≤ policy.bearWeight.toNat) (hnd : (candidates.map PartyMember.pid).Nodup)
    (hw : ∀ c ∈ candidates, c.w = 1 ∨ c.w = policy.bearWeight.toUInt32) :
    ((policy.tryFormGroup candidates).1 = true ↔ ∃ party, policy.LedParty candidates party) ∧
    ((policy.tryFormGroup candidates).1 = true →
      policy.LedParty candidates (membersOf candidates (policy.tryFormGroup candidates).2) ∧
      (∀ p ∈ (policy.tryFormGroup candidates).2, p ∈ candidates.map PartyMember.pid) ∧
      (policy.tryFormGroup candidates).2.Nodup ∧
      (policy.tryFormGroup candidates).2.head? = candidates.head?.map PartyMember.pid) ∧
    ((policy.tryFormGroup candidates).1 = false → (policy.tryFormGroup candidates).2 = []) ∧
    policy.tryFormGroupChecked candidates = some (policy.tryFormGroup candidates) := by
  have hchecked := tryFormGroupChecked_eq hb (fun c hc => weight_pos hb (hw c hc)) hnd
  cases candidates with
  | nil =>
    refine ⟨⟨fun h => (nomatch h), ?_⟩, fun h => (nomatch h), fun _ => rfl, hchecked⟩
    rintro ⟨party, -, ⟨c, -, hhead⟩, -⟩
    cases hhead
  | cons leader rest =>
    have hout := outcome_of_weights hh hb hnd hw
    refine ⟨hout.formed_iff hh hnd hw, ?_, ?_, hchecked⟩
    · intro htrue
      generalize policy.tryFormGroup (leader :: rest) = result at hout htrue
      cases hout with
      | tooHeavy | infeasible => cases htrue
      | formed k hle hk hf _ =>
        exact ⟨ledParty_groupWith hh hnd hle hk hf, fun p hp => mem_groupWith hp,
          groupWith_nodup hnd, rfl⟩
    · intro hfalse
      generalize policy.tryFormGroup (leader :: rest) = result at hout hfalse
      cases hout with
      | tooHeavy | infeasible => rfl
      | formed => cases hfalse

/-- A bear with two hares and one bear to choose from, capacity 9. -/
theorem tryFormGroup_sound_complete_bears :
    (⟨9, 1, 4⟩ : LamportPolicy).LedParty [⟨5, 4⟩, ⟨0, 1⟩, ⟨6, 4⟩, ⟨1, 1⟩]
      (membersOf [⟨5, 4⟩, ⟨0, 1⟩, ⟨6, 4⟩, ⟨1, 1⟩] [5, 6, 0]) ∧
    (⟨9, 1, 4⟩ : LamportPolicy).tryFormGroupChecked [⟨5, 4⟩, ⟨0, 1⟩, ⟨6, 4⟩, ⟨1, 1⟩] =
      some (true, [5, 6, 0]) := by
  have heq : (⟨9, 1, 4⟩ : LamportPolicy).tryFormGroup [⟨5, 4⟩, ⟨0, 1⟩, ⟨6, 4⟩, ⟨1, 1⟩] =
      (true, [5, 6, 0]) := by
    decide +kernel
  have h := @tryFormGroup_sound_complete ⟨9, 1, 4⟩ [⟨5, 4⟩, ⟨0, 1⟩, ⟨6, 4⟩, ⟨1, 1⟩] rfl
    (by decide) (by decide) (by decide)
  rw [heq] at h
  exact ⟨(h.2.1 rfl).1, h.2.2.2⟩

end Correctness

section Preference

variable {policy : LamportPolicy} {leader : PartyMember} {rest : List PartyMember} {k : ℕ}

/-- The bears of a party are the first candidate, if it is one, and the others. -/
theorem card_bearsAmong {party : Finset PartyMember} (h : leader ∈ party) :
    (bearsAmong party).card =
      (bearsAmong (party.erase leader)).card + if leader.w = 1 then 0 else 1 := by
  unfold bearsAmong
  rw [Finset.filter_erase]
  split_ifs with hw
  · rw [Finset.erase_eq_of_notMem (by simp [hw]), Nat.add_zero]
  · exact (Finset.card_erase_add_one (Finset.mem_filter.mpr ⟨h, hw⟩)).symm

/-- The group with `k` bears beside the first candidate has that many. -/
theorem le_card_bears_groupWith (hb : 2 ≤ policy.bearWeight.toNat)
    (hnd : ((leader :: rest).map PartyMember.pid).Nodup)
    (hk : k ≤ (policy.bearsOf rest).length) :
    k ≤ (bearsAmong ((membersOf (leader :: rest) (policy.groupWith leader rest k)).erase
      leader)).card := by
  have hbears : (policy.bearsOf rest).Nodup := by
    have hall := (selection_nodup policy hnd).of_append_left
    exact (List.nodup_cons.mp hall).2
  have hlen : ((policy.bearsOf rest).take k).toFinset.card = k := by
    rw [List.toFinset_card_of_nodup (hbears.sublist (List.take_sublist ..)), List.length_take,
      Nat.min_eq_left hk]
  calc
    k = ((policy.bearsOf rest).take k).toFinset.card := hlen.symm
    _ ≤ _ := by
      refine Finset.card_le_card_of_injOn (fun p => ⟨p, policy.bearWeight.toUInt32⟩) ?_ ?_
      · intro p hp
        have hp := List.mem_toFinset.mp hp
        have hrest := (mem_bearsOf.mp (List.mem_of_mem_take hp)).2
        have hnl : leader.pid ∉ rest.map PartyMember.pid := (List.nodup_cons.mp hnd).1
        refine Finset.mem_filter.mpr ⟨Finset.mem_erase.mpr ⟨?_, mem_membersOf.mpr ⟨?_, ?_⟩⟩, ?_⟩
        · intro heq
          exact hnl (List.mem_map.mpr ⟨_, hrest, congrArg PartyMember.pid heq⟩)
        · exact List.mem_cons_of_mem _ hrest
        · exact List.mem_append_left _ (List.mem_cons_of_mem _ hp)
        · exact bearWeight_ne_one hb
      · intro p _ q _ hpq
        exact congrArg PartyMember.pid hpq

/-- No party with the first candidate has more bears than the group. -/
theorem card_bears_le (hh : policy.hareWeight = 1) (hb : 2 ≤ policy.bearWeight.toNat)
    (hnd : ((leader :: rest).map PartyMember.pid).Nodup)
    (hw : ∀ c ∈ leader :: rest, c.w = 1 ∨ c.w = policy.bearWeight.toUInt32)
    (hk : k ≤ (policy.bearsOf rest).length)
    (hmax : ∀ j ≤ (policy.bearsOf rest).length, k < j → ¬ policy.FeasibleFor leader rest j)
    {party : Finset PartyMember} (hparty : policy.LedParty (leader :: rest) party) :
    (bearsAmong party).card ≤
      (bearsAmong (membersOf (leader :: rest) (policy.groupWith leader rest k))).card := by
  obtain ⟨hdrawn, ⟨c, hc, hhead⟩, hfill⟩ := hparty
  obtain rfl := Option.some.inj hhead
  have hin : leader ∈ membersOf (leader :: rest) (policy.groupWith leader rest k) :=
    mem_membersOf.mpr ⟨List.mem_cons_self .., List.mem_append_left _ (List.mem_cons_self ..)⟩
  obtain ⟨-, hj, hf⟩ := feasible_of_fills hh hw hdrawn hc hfill
  have hle : (bearsAmong (party.erase leader)).card ≤ k := by
    by_contra hlt
    exact hmax _ hj (Nat.lt_of_not_le hlt) hf
  rw [card_bearsAmong hc, card_bearsAmong hin]
  exact Nat.add_le_add_right (le_trans hle (le_card_bears_groupWith hb hnd hk)) _

/-- Whoever passes a test is served in the order of the list. -/
theorem mem_take_of_earlier {α β : Type*} {f : α → β} {test : α → Bool} {l : List α}
    (hnd : (l.map f).Nodup) {i j n : ℕ} (hij : i < j) {c d : α} (hc : l[i]? = some c)
    (hd : l[j]? = some d) (hpass : test c = true) (hmem : f d ∈ ((l.filter test).map f).take n) :
    f c ∈ ((l.filter test).map f).take n := by
  induction l generalizing i j n with
  | nil => cases hc
  | cons x xs ih =>
    rw [List.map_cons, List.nodup_cons] at hnd
    cases j with
    | zero => exact absurd hij (Nat.not_lt_zero i)
    | succ j =>
      rw [List.getElem?_cons_succ] at hd
      have hne : f d ≠ f x := by
        intro hx
        exact hnd.1 (hx ▸ List.mem_map_of_mem (List.mem_of_getElem? hd))
      cases i with
      | zero =>
        obtain rfl := Option.some.inj hc
        cases n with
        | zero => simp at hmem
        | succ n => simp [hpass]
      | succ i =>
        rw [List.getElem?_cons_succ] at hc
        have hij' : i < j := Nat.lt_of_succ_lt_succ hij
        by_cases hx : test x = true
        · rw [List.filter_cons_of_pos hx, List.map_cons] at hmem ⊢
          cases n with
          | zero => simp at hmem
          | succ n =>
            rw [List.take_succ_cons, List.mem_cons] at hmem ⊢
            exact Or.inr (ih hnd.2 hij' hc hd (hmem.resolve_left hne))
        · rw [List.filter_cons_of_neg hx] at hmem ⊢
          exact ih hnd.2 hij' hc hd hmem

/-- Within a species nobody behind the first candidate is overtaken. -/
theorem groupWith_in_order (hnd : ((leader :: rest).map PartyMember.pid).Nodup)
    {i j : ℕ} (hij : i < j) {c d : PartyMember} (hc : rest[i]? = some c) (hd : rest[j]? = some d)
    (hsame : c.w = d.w) (hmem : d.pid ∈ policy.groupWith leader rest k) :
    c.pid ∈ policy.groupWith leader rest k := by
  rw [List.map_cons, List.nodup_cons] at hnd
  have hdm := List.mem_of_getElem? hd
  have hserve : ∀ (test : PartyMember → Bool) (n : ℕ), (∀ x y, x.w = y.w → test x = test y) →
      d.pid ∈ ((rest.filter test).map PartyMember.pid).take n →
      c.pid ∈ ((rest.filter test).map PartyMember.pid).take n := by
    intro test n htest hg
    obtain ⟨e, he, hpid⟩ := List.mem_map.mp (List.mem_of_mem_take hg)
    obtain ⟨her, hpass⟩ := List.mem_filter.mp he
    obtain rfl := (List.nodup_map_iff_inj_on hnd.2.of_map).mp hnd.2 _ her _ hdm hpid
    exact mem_take_of_earlier hnd.2 hij hc hd ((htest _ _ hsame).trans hpass) hg
  rcases List.mem_append.mp hmem with hg | hg
  · rcases List.mem_cons.mp hg with hl | hg
    · exact absurd (hl ▸ List.mem_map_of_mem hdm) hnd.1
    · refine List.mem_append_left _ (List.mem_cons_of_mem _ (hserve _ k ?_ hg))
      intro x y hxy
      simp only [hxy]
  · refine List.mem_append_right _ (hserve _ _ ?_ hg)
    intro x y hxy
    simp only [hxy]

theorem filter_bearWeight (hb : 2 ≤ policy.bearWeight.toNat) {party : Finset PartyMember}
    (hw : ∀ c ∈ party, c.w = 1 ∨ c.w = policy.bearWeight.toUInt32) :
    party.filter (·.w = policy.bearWeight.toUInt32) = bearsAmong party := by
  refine Finset.filter_congr (fun c hc => ?_)
  constructor
  · exact fun hbear hone => bearWeight_ne_one hb (hbear.symm.trans hone)
  · exact (hw c hc).resolve_left

/-- The group has as many bears as any party with the first candidate, and whoever
is in it behind the first candidate has all earlier ones of its species with it. -/
theorem tryFormGroup_preference {candidates : List PartyMember} (hh : policy.hareWeight = 1)
    (hb : 2 ≤ policy.bearWeight.toNat) (hnd : (candidates.map PartyMember.pid).Nodup)
    (hw : ∀ c ∈ candidates, c.w = 1 ∨ c.w = policy.bearWeight.toUInt32)
    (hformed : (policy.tryFormGroup candidates).1 = true) :
    (∀ party, policy.LedParty candidates party →
      (party.filter (·.w = policy.bearWeight.toUInt32)).card ≤
        ((membersOf candidates (policy.tryFormGroup candidates).2).filter
          (·.w = policy.bearWeight.toUInt32)).card) ∧
    ∀ (i j : ℕ) (c d : PartyMember), 0 < i → i < j → candidates[i]? = some c →
      candidates[j]? = some d → c.w = d.w → d.pid ∈ (policy.tryFormGroup candidates).2 →
      c.pid ∈ (policy.tryFormGroup candidates).2 := by
  cases candidates with
  | nil => cases hformed
  | cons leader rest =>
    have hout := outcome_of_weights hh (by omega) hnd hw
    generalize policy.tryFormGroup (leader :: rest) = result at hout hformed
    cases hout with
    | tooHeavy | infeasible => cases hformed
    | formed k hle hk hf hmax =>
      constructor
      · intro party hparty
        rw [filter_bearWeight hb (fun c hc => hw c (hparty.drawn c hc)),
          filter_bearWeight hb (fun c hc => hw c (mem_membersOf.mp hc).1)]
        exact card_bears_le hh hb hnd hw hk hmax hparty
      · intro i j c d hi hij hc hd hsame hmem
        obtain ⟨i, rfl⟩ := Nat.exists_eq_succ_of_ne_zero (Nat.pos_iff_ne_zero.mp hi)
        obtain ⟨j, rfl⟩ := Nat.exists_eq_succ_of_ne_zero (Nat.ne_of_gt (Nat.zero_lt_of_lt hij))
        rw [List.getElem?_cons_succ] at hc hd
        exact groupWith_in_order hnd (Nat.lt_of_succ_lt_succ hij) hc hd hsame hmem

/-- A hare in front, capacity 6: one bear and one more hare, the first of each. -/
theorem tryFormGroup_preference_hare :
    (⟨6, 1, 4⟩ : LamportPolicy).tryFormGroup [⟨0, 1⟩, ⟨5, 4⟩, ⟨1, 1⟩, ⟨6, 4⟩, ⟨2, 1⟩] =
      (true, [0, 5, 1]) ∧
    ∀ party, (⟨6, 1, 4⟩ : LamportPolicy).LedParty [⟨0, 1⟩, ⟨5, 4⟩, ⟨1, 1⟩, ⟨6, 4⟩, ⟨2, 1⟩] party →
      (party.filter (·.w = 4)).card ≤ 1 := by
  have heq : (⟨6, 1, 4⟩ : LamportPolicy).tryFormGroup
      [⟨0, 1⟩, ⟨5, 4⟩, ⟨1, 1⟩, ⟨6, 4⟩, ⟨2, 1⟩] = (true, [0, 5, 1]) := by
    decide +kernel
  have h := (@tryFormGroup_preference ⟨6, 1, 4⟩ [⟨0, 1⟩, ⟨5, 4⟩, ⟨1, 1⟩, ⟨6, 4⟩, ⟨2, 1⟩] rfl
    (by decide) (by decide) (by decide) (by rw [heq])).1
  rw [heq] at h
  exact ⟨heq, h⟩

end Preference

section Threshold

variable {policy : LamportPolicy}

def haresFilling (policy : LamportPolicy) : List PartyMember :=
  (List.range policy.capacity.toNat).map (fun n => ⟨UInt32.ofNat (n + 1), 1⟩)

def bearFirst (policy : LamportPolicy) : List PartyMember :=
  ⟨0, policy.bearWeight.toUInt32⟩ :: policy.haresFilling

theorem bearFirst_nodup (hle : policy.capacity.toNat ≤ policy.bearWeight.toNat) :
    (policy.bearFirst.map PartyMember.pid).Nodup := by
  have hbyte := policy.bearWeight.toNat_lt
  have hpid : ∀ n ∈ List.range policy.capacity.toNat, (UInt32.ofNat (n + 1)).toNat = n + 1 := by
    intro n hn
    rw [List.mem_range] at hn
    have hlt : n + 1 < 2 ^ 32 := by omega
    exact UInt32.toNat_ofNat_of_lt' hlt
  unfold bearFirst haresFilling
  rw [List.map_cons, List.map_map, List.nodup_cons]
  constructor
  · intro hmem
    obtain ⟨n, hn, hzero⟩ := List.mem_map.mp hmem
    have hx := congrArg UInt32.toNat hzero
    rw [Function.comp_apply, hpid n hn, UInt32.toNat_zero] at hx
    omega
  · refine List.Nodup.map_on ?_ List.nodup_range
    intro m hm n hn heq
    have hx := congrArg UInt32.toNat heq
    rw [Function.comp_apply, Function.comp_apply, hpid m hm, hpid n hn] at hx
    omega

/-- The hares behind the bear could be a party. -/
theorem fills_haresFilling (hle : policy.capacity.toNat ≤ policy.bearWeight.toNat)
    (hcap : 1 ≤ policy.capacity.toNat) : policy.Fills policy.haresFilling.toFinset := by
  have hpids : (policy.haresFilling.map PartyMember.pid).Nodup :=
    (List.nodup_cons.mp (bearFirst_nodup hle)).2
  constructor
  · rw [List.sum_toFinset _ hpids.of_map]
    simp [haresFilling, Function.comp_def]
  · refine ⟨⟨1, 1⟩, ?_, rfl⟩
    rw [List.mem_toFinset]
    exact List.mem_map.mpr ⟨0, List.mem_range.mpr hcap, rfl⟩

/-- The bear takes all the room and leaves none for a hare. -/
theorem tryFormGroup_bearFirst (hh : policy.hareWeight = 1) (hb : 2 ≤ policy.bearWeight.toNat)
    (hle : policy.capacity.toNat ≤ policy.bearWeight.toNat)
    (hw : ∀ c ∈ policy.bearFirst, c.w = 1 ∨ c.w = policy.bearWeight.toUInt32) :
    (policy.tryFormGroup policy.bearFirst).1 = false := by
  have hout := outcome_of_weights hh (by omega) (bearFirst_nodup hle) hw
  rw [bearFirst]
  generalize policy.tryFormGroup (_ :: _) = result at hout
  cases hout with
  | tooHeavy | infeasible => rfl
  | formed k hfit hk hf _ =>
    obtain ⟨hroom, -⟩ := hf
    have hplace : placeFor ⟨0, policy.bearWeight.toUInt32⟩ = 1 := if_neg (bearWeight_ne_one hb)
    rw [hplace, UInt8.toNat_toUInt32] at hroom
    omega

/-- Where a bear leaves room, any party can be changed into one with the first
candidate. -/
theorem tryFormGroup_of_party (hh : policy.hareWeight = 1) (hb : 2 ≤ policy.bearWeight.toNat)
    (hlt : policy.bearWeight.toNat < policy.capacity.toNat) {candidates : List PartyMember}
    (hnd : (candidates.map PartyMember.pid).Nodup)
    (hw : ∀ c ∈ candidates, c.w = 1 ∨ c.w = policy.bearWeight.toUInt32)
    {party : Finset PartyMember} (hsub : ∀ c ∈ party, c ∈ candidates)
    (hfill : policy.Fills party) : (policy.tryFormGroup candidates).1 = true := by
  cases candidates with
  | nil =>
    obtain ⟨-, c, hc, -⟩ := hfill
    cases hsub c hc
  | cons leader rest =>
    have hout := outcome_of_weights hh (by omega) hnd hw
    obtain ⟨hle, k, hk, hf⟩ := feasible_of_exchange hh hw (Or.inr hlt) hsub hfill
    generalize policy.tryFormGroup (leader :: rest) = result at hout
    cases hout with
    | tooHeavy hheavy => omega
    | infeasible _ hno => exact absurd hf (hno k hk)
    | formed => rfl

/-- The policy never fails where the candidates could make a party, with or without
the first, exactly if the capacity exceeds the weight of a bear. -/
theorem head_never_blocks_iff (hh : policy.hareWeight = 1) (hb : 2 ≤ policy.bearWeight.toNat)
    (hcap : 1 ≤ policy.capacity.toNat) :
    (∀ candidates : List PartyMember, (candidates.map PartyMember.pid).Nodup →
      (∀ c ∈ candidates, c.w = 1 ∨ c.w = policy.bearWeight.toUInt32) →
      (∃ party : Finset PartyMember, (∀ c ∈ party, c ∈ candidates) ∧ policy.Fills party) →
      (policy.tryFormGroup candidates).1 = true) ↔
    policy.bearWeight.toNat < policy.capacity.toNat := by
  constructor
  · intro hall
    by_contra hlt
    have hle : policy.capacity.toNat ≤ policy.bearWeight.toNat := Nat.le_of_not_lt hlt
    have hw : ∀ c ∈ policy.bearFirst, c.w = 1 ∨ c.w = policy.bearWeight.toUInt32 := by
      intro c hc
      rcases List.mem_cons.mp hc with rfl | hc
      · exact Or.inr rfl
      · obtain ⟨n, -, rfl⟩ := List.mem_map.mp hc
        exact Or.inl rfl
    have hformed := hall _ (bearFirst_nodup hle) hw ⟨_, fun c hc =>
      List.mem_cons_of_mem _ (List.mem_toFinset.mp hc), fills_haresFilling hle hcap⟩
    rw [tryFormGroup_bearFirst hh hb hle hw] at hformed
    cases hformed
  · intro hlt candidates hnd hw hex
    obtain ⟨party, hsub, hfill⟩ := hex
    exact tryFormGroup_of_party hh hb hlt hnd hw hsub hfill

/-- The threshold for bears of weight 4: capacity 5 never blocks, capacity 4 may. -/
theorem head_never_blocks_iff_four :
    (∀ candidates : List PartyMember, (candidates.map PartyMember.pid).Nodup →
      (∀ c ∈ candidates, c.w = 1 ∨ c.w = (4 : UInt8).toUInt32) →
      (∃ party : Finset PartyMember, (∀ c ∈ party, c ∈ candidates) ∧
        (⟨5, 1, 4⟩ : LamportPolicy).Fills party) →
      ((⟨5, 1, 4⟩ : LamportPolicy).tryFormGroup candidates).1 = true) ∧
    ¬ (∀ candidates : List PartyMember, (candidates.map PartyMember.pid).Nodup →
      (∀ c ∈ candidates, c.w = 1 ∨ c.w = (4 : UInt8).toUInt32) →
      (∃ party : Finset PartyMember, (∀ c ∈ party, c ∈ candidates) ∧
        (⟨4, 1, 4⟩ : LamportPolicy).Fills party) →
      ((⟨4, 1, 4⟩ : LamportPolicy).tryFormGroup candidates).1 = true) := by
  refine ⟨(@head_never_blocks_iff ⟨5, 1, 4⟩ rfl (by decide) (by decide)).mpr (by decide), ?_⟩
  intro hall
  exact absurd ((@head_never_blocks_iff ⟨4, 1, 4⟩ rfl (by decide) (by decide)).mp hall) (by decide)

end Threshold

end HaresBears.LamportPolicy
