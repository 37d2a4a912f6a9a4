import HaresBears.GroupFormation

/-!
Group formation with every 32-bit operation checked: a difference, product, sum
or cast that does not fit, or a division by zero, has no result. The checked
search never fails and computes the same group.
-/
namespace HaresBears

def checkedSub (a b : UInt32) : Option UInt32 := if b ≤ a then some (a - b) else none

def checkedMul (a b : UInt32) : Option UInt32 :=
  if a.toNat * b.toNat < 2 ^ 32 then some (a * b) else none

def checkedAdd (a b : UInt32) : Option UInt32 :=
  if a.toNat + b.toNat < 2 ^ 32 then some (a + b) else none

def checkedDiv (a b : UInt32) : Option UInt32 := if b = 0 then none else some (a / b)

def checkedCast (n : ℕ) : Option UInt32 := if n < 2 ^ 32 then some (UInt32.ofNat n) else none

theorem checkedSub_of_le {a b : UInt32} (h : b.toNat ≤ a.toNat) : checkedSub a b = some (a - b) :=
  if_pos (UInt32.le_iff_toNat_le.mpr h)

theorem toNat_pred {b : UInt32} (hb : 0 < b) : b.toNat = (b - 1).toNat + 1 := by
  have hpos : 1 ≤ b.toNat := UInt32.lt_iff_toNat_lt.mp hb
  have hsub := UInt32.toNat_sub_of_le b 1 (UInt32.le_iff_toNat_le.mpr hpos)
  rw [UInt32.toNat_one] at hsub
  omega

namespace LamportPolicy

/-- `findBears`, checked. The last decrement of the counter, which ends the loop at
zero, is not among the operations: nothing reads its result. -/
def findBearsChecked (policy : LamportPolicy) (remaining placeForHare : UInt32) (hares : ℕ) :
    ℕ → Option (Option UInt32)
  | 0 => some none
  | n + 1 => do
    let b ← checkedCast n
    let quotient ← checkedDiv remaining policy.bearWeight.toUInt32
    if b > quotient then findBearsChecked policy remaining placeForHare hares n
    else
      let product ← checkedMul b policy.bearWeight.toUInt32
      let rem2 ← checkedSub remaining product
      if rem2 < placeForHare then findBearsChecked policy remaining placeForHare hares n
      else if rem2.toNat > hares then findBearsChecked policy remaining placeForHare hares n
      else some (some b)

/-- The loop of `findBears` on its 32-bit counter: the counter after it, and the number
found. The test `b-- > 0` lowers the counter in any case. -/
def findBearsLoop (policy : LamportPolicy) (remaining placeForHare : UInt32) (hares : ℕ)
    (b : UInt32) : UInt32 × Option UInt32 :=
  if 0 < b then
    if b - 1 > remaining / policy.bearWeight.toUInt32 then
      findBearsLoop policy remaining placeForHare hares (b - 1)
    else
      let rem2 := remaining - (b - 1) * policy.bearWeight.toUInt32
      if rem2 < placeForHare then findBearsLoop policy remaining placeForHare hares (b - 1)
      else if rem2.toNat > hares then findBearsLoop policy remaining placeForHare hares (b - 1)
      else (b - 1, some (b - 1))
  else (b - 1, none)
termination_by b.toNat
decreasing_by
  all_goals
    have hpred := toNat_pred ‹0 < b›
    omega

def takeBearsChecked (policy : LamportPolicy) (chosen : List Pid) (rem : UInt32) :
    List Pid → Option (List Pid × UInt32)
  | [] => some (chosen, rem)
  | pid :: bears => do
    let rem ← checkedSub rem policy.bearWeight.toUInt32
    takeBearsChecked policy (addPid chosen pid).1 rem bears

def takeHaresChecked (haresNeeded : UInt32) (chosen : List Pid) (takenHares : UInt32)
    (hareInGroup : Bool) : List Pid → Option (List Pid × UInt32 × Bool)
  | [] => some (chosen, takenHares, hareInGroup)
  | pid :: hares =>
    if takenHares = haresNeeded then some (chosen, takenHares, hareInGroup)
    else if (addPid chosen pid).2 then do
      let takenHares ← checkedAdd takenHares 1
      takeHaresChecked haresNeeded (addPid chosen pid).1 takenHares true hares
    else takeHaresChecked haresNeeded chosen takenHares hareInGroup hares

def selectGroupChecked (policy : LamportPolicy) (leader : PartyMember) (remaining : UInt32)
    (hareInGroup : Bool) (hares bears : List Pid) (bearsToTake : UInt32) :
    Option (Bool × List Pid) := do
  let (chosen, haresNeeded) ←
    policy.takeBearsChecked (addPid [] leader.pid).1 remaining (bears.take bearsToTake.toNat)
  let (chosen, takenHares, hareInGroup) ← takeHaresChecked haresNeeded chosen 0 hareInGroup hares
  if takenHares ≠ haresNeeded then some (false, [])
  else if !hareInGroup then some (false, [])
  else some (true, chosen)

def tryFormGroupChecked (policy : LamportPolicy) (candidates : List PartyMember) :
    Option (Bool × List Pid) :=
  match candidates with
  | [] => some (false, [])
  | leader :: rest =>
    if policy.capacity = 0 then some (false, [])
    else if policy.hareWeight ≠ 1 then some (false, [])
    else if leader.w > policy.capacity then some (false, [])
    else do
      let remaining ← checkedSub policy.capacity leader.w
      let hareInGroup := decide (leader.w = policy.hareWeight.toUInt32)
      let hares := policy.haresOf rest
      let bears := policy.bearsOf rest
      if !hareInGroup && hares.isEmpty then some (false, [])
      else
        let placeForHare : UInt32 := if hareInGroup then 0 else 1
        if remaining < placeForHare then some (false, [])
        else
          let maxBearsNum ← checkedDiv remaining policy.bearWeight.toUInt32
          let bearsSize ← checkedCast bears.length
          let bMax := min maxBearsNum bearsSize
          let start ← checkedAdd bMax 1
          match ← policy.findBearsChecked remaining placeForHare hares.length start.toNat with
          | none => some (false, [])
          | some bearsToTake =>
            policy.selectGroupChecked leader remaining hareInGroup hares bears bearsToTake

section Loops

variable (policy : LamportPolicy)

theorem checkedDiv_bearWeight (a : UInt32) (hb : 1 ≤ policy.bearWeight.toNat) :
    checkedDiv a policy.bearWeight.toUInt32 = some (a / policy.bearWeight.toUInt32) := by
  apply if_neg
  intro hx
  have hz := congrArg UInt32.toNat hx
  rw [UInt8.toNat_toUInt32, UInt32.toNat_zero] at hz
  omega

/-- Below the quotient the product fits and the difference exists. -/
theorem findBearsChecked_eq (rem place : UInt32) (h : ℕ) {n : ℕ}
    (hb : 1 ≤ policy.bearWeight.toNat) (hn : n ≤ 2 ^ 32) :
    policy.findBearsChecked rem place h n = some (policy.findBears rem place h n) := by
  induction n with
  | zero => rfl
  | succ n ih =>
    have hcast : checkedCast n = some (UInt32.ofNat n) := if_pos hn
    have hdiv : checkedDiv rem policy.bearWeight.toUInt32 =
        some (rem / policy.bearWeight.toUInt32) := checkedDiv_bearWeight policy rem hb
    simp only [findBearsChecked, findBears, hcast, hdiv, Option.bind_eq_bind, Option.bind_some]
    by_cases hguard : UInt32.ofNat n > rem / policy.bearWeight.toUInt32
    · rw [if_pos hguard, if_pos hguard, ih (by omega)]
    · rw [if_neg hguard, if_neg hguard]
      have hle : (UInt32.ofNat n).toNat * policy.bearWeight.toUInt32.toNat ≤ rem.toNat := by
        rw [gt_iff_lt, UInt32.lt_iff_toNat_lt, UInt32.toNat_div, not_lt] at hguard
        exact (Nat.le_div_iff_mul_le (by rwa [UInt8.toNat_toUInt32])).mp hguard
      have hfits := lt_of_le_of_lt hle rem.toNat_lt
      have hmul : checkedMul (UInt32.ofNat n) policy.bearWeight.toUInt32 =
          some (UInt32.ofNat n * policy.bearWeight.toUInt32) := if_pos hfits
      have hsub : checkedSub rem (UInt32.ofNat n * policy.bearWeight.toUInt32) =
          some (rem - UInt32.ofNat n * policy.bearWeight.toUInt32) := by
        apply checkedSub_of_le
        rwa [UInt32.toNat_mul, Nat.mod_eq_of_lt hfits]
      simp only [hmul, hsub, Option.bind_some, ih (by omega)]
      split_ifs <;> rfl

/-- The counter holds the number found, or has wrapped past zero in the test that ends the
loop. -/
theorem findBearsLoop_eq (rem place : UInt32) (h : ℕ) (b : UInt32) :
    policy.findBearsLoop rem place h b =
      ((policy.findBears rem place h b.toNat).getD 4294967295,
        policy.findBears rem place h b.toNat) := by
  induction hn : b.toNat generalizing b with
  | zero =>
    obtain rfl : b = 0 := UInt32.toNat_inj.mp hn
    rw [findBearsLoop, if_neg (by decide)]
    rfl
  | succ n ih =>
    have hpos : 0 < b := by
      rw [UInt32.lt_iff_toNat_lt, hn]
      exact Nat.succ_pos n
    have hlast : (b - 1).toNat = n := by
      have hpred := toNat_pred hpos
      omega
    have hcast : UInt32.ofNat n = b - 1 := by rw [← hlast, UInt32.ofNat_toNat]
    rw [findBearsLoop, if_pos hpos, findBears, hcast, ih (b - 1) hlast]
    split
    · rfl
    · dsimp only
      split
      · rfl
      · split <;> rfl

/-- The checked search finds what the loop of the source finds. -/
theorem findBearsChecked_loop (rem place : UInt32) (h : ℕ) (b : UInt32)
    (hb : 1 ≤ policy.bearWeight.toNat) :
    policy.findBearsChecked rem place h b.toNat =
      some (policy.findBearsLoop rem place h b).2 := by
  rw [findBearsLoop_eq]
  exact findBearsChecked_eq policy rem place h hb (Nat.le_of_lt b.toNat_lt)

theorem takeBearsChecked_eq {chosen bears : List Pid} {rem : UInt32}
    (hfit : policy.bearWeight.toNat * bears.length ≤ rem.toNat) :
    policy.takeBearsChecked chosen rem bears = some (policy.takeBears chosen rem bears) := by
  induction bears generalizing chosen rem with
  | nil => rfl
  | cons pid bears ih =>
    rw [List.length_cons, Nat.mul_succ] at hfit
    have hle : policy.bearWeight.toUInt32.toNat ≤ rem.toNat := by
      rw [UInt8.toNat_toUInt32]
      omega
    have hsub := UInt32.toNat_sub_of_le _ _ (UInt32.le_iff_toNat_le.mpr hle)
    rw [UInt8.toNat_toUInt32] at hsub
    simp only [takeBearsChecked, checkedSub_of_le hle, Option.bind_eq_bind, Option.bind_some]
    exact ih (by omega)

/-- The counter stays at most the number of hares needed. -/
theorem takeHaresChecked_eq {chosen hares : List Pid} {needed taken : UInt32} {hig : Bool}
    (hle : taken.toNat ≤ needed.toNat) :
    takeHaresChecked needed chosen taken hig hares =
      some (takeHares needed chosen taken hig hares) := by
  induction hares generalizing chosen taken hig with
  | nil => rfl
  | cons pid hares ih =>
    unfold takeHaresChecked takeHares
    by_cases heq : taken = needed
    · rw [if_pos heq, if_pos heq]
    · have hne : taken.toNat ≠ needed.toNat := fun hx => heq (UInt32.toNat_inj.mp hx)
      have hneeded := needed.toNat_lt
      have hfits : taken.toNat + (1 : UInt32).toNat < 2 ^ 32 := by
        rw [UInt32.toNat_one]
        omega
      have hadd : checkedAdd taken 1 = some (taken + 1) := if_pos hfits
      have hsucc : (taken + 1).toNat = taken.toNat + 1 := by
        rw [UInt32.toNat_add, Nat.mod_eq_of_lt hfits, UInt32.toNat_one]
      rw [if_neg heq, if_neg heq]
      split
      · simp only [hadd, Option.bind_eq_bind, Option.bind_some]
        exact ih (by omega)
      · exact ih hle

end Loops

section Exactness

variable {policy : LamportPolicy}

theorem selectGroupChecked_eq {leader : PartyMember} {remaining b : UInt32} {hig : Bool}
    {hares bears : List Pid} (hfit : policy.bearWeight.toNat * b.toNat ≤ remaining.toNat) :
    policy.selectGroupChecked leader remaining hig hares bears b =
      some (policy.selectGroup leader remaining hig hares bears b) := by
  have htake : policy.bearWeight.toNat * (bears.take b.toNat).length ≤ remaining.toNat :=
    le_trans (Nat.mul_le_mul_left _ (List.length_take_le ..)) hfit
  have hzero : ∀ needed : UInt32, (0 : UInt32).toNat ≤ needed.toNat := fun _ => Nat.zero_le _
  unfold selectGroupChecked selectGroup
  simp only [takeBearsChecked_eq policy htake, takeHaresChecked_eq (hzero _),
    Option.bind_eq_bind, Option.bind_some]
  split_ifs <;> rfl

/-- No operation of the search wraps around. -/
theorem tryFormGroupChecked_eq (hb : 1 ≤ policy.bearWeight.toNat) {candidates : List PartyMember}
    (hw : ∀ c ∈ candidates, 1 ≤ c.w.toNat) (hnd : (candidates.map PartyMember.pid).Nodup) :
    policy.tryFormGroupChecked candidates = some (policy.tryFormGroup candidates) := by
  cases candidates with
  | nil => rfl
  | cons leader rest =>
    have hlw := hw leader (List.mem_cons_self ..)
    unfold tryFormGroupChecked tryFormGroup
    dsimp only
    by_cases hcap : policy.capacity = 0
    · rw [if_pos hcap, if_pos hcap]
    by_cases hhare : policy.hareWeight ≠ 1
    · rw [if_neg hcap, if_neg hcap, if_pos hhare, if_pos hhare]
    rw [if_neg hcap, if_neg hcap, if_neg hhare, if_neg hhare]
    by_cases hheavy : leader.w > policy.capacity
    · rw [if_pos hheavy, if_pos hheavy]
    have hle : leader.w.toNat ≤ policy.capacity.toNat := by
      rwa [gt_iff_lt, UInt32.lt_iff_toNat_lt, not_lt] at hheavy
    have hcast : checkedCast (policy.bearsOf rest).length =
        some (UInt32.ofNat (policy.bearsOf rest).length) :=
      if_pos (bearsOf_length_lt policy hnd)
    have hdiv : checkedDiv (policy.capacity - leader.w) policy.bearWeight.toUInt32 =
        some ((policy.capacity - leader.w) / policy.bearWeight.toUInt32) :=
      checkedDiv_bearWeight policy _ hb
    have hadd : checkedAdd (min ((policy.capacity - leader.w) / policy.bearWeight.toUInt32)
        (UInt32.ofNat (policy.bearsOf rest).length)) 1 =
        some (min ((policy.capacity - leader.w) / policy.bearWeight.toUInt32)
          (UInt32.ofNat (policy.bearsOf rest).length) + 1) :=
      if_pos (bMax_lt hlw hle)
    rw [if_neg hheavy, if_neg hheavy]
    simp only [checkedSub_of_le hle, hcast, hdiv, hadd, Option.bind_eq_bind, Option.bind_some,
      findBearsChecked_eq policy _ _ _ hb (UInt32.toNat_lt _).le]
    generalize (if decide (leader.w = policy.hareWeight.toUInt32) = true then (0 : UInt32)
      else 1) = place
    split_ifs
    · rfl
    · rfl
    · have hsearch := findBears_spec policy (policy.capacity - leader.w) place
        (policy.haresOf rest).length (n := (min ((policy.capacity - leader.w) /
          policy.bearWeight.toUInt32) (UInt32.ofNat (policy.bearsOf rest).length) + 1).toNat)
        hb (UInt32.toNat_lt _).le
      split
      · rename_i hfound
        rw [hfound]
      · rename_i b hfound
        rw [hfound] at hsearch ⊢
        exact selectGroupChecked_eq (le_trans (Nat.le_add_right ..) hsearch.2.1.1)

end Exactness

end LamportPolicy

end HaresBears
