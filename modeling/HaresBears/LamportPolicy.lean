import HaresBears.Core
import Mathlib.Data.Fintype.Card

/-!
Group formation. The policy always takes the first candidate, then as many
bears as can be completed with hares, then hares up to the capacity exactly.
The arithmetic is 32 bits wide.
-/
namespace HaresBears

structure LamportPolicy where
  capacity : UInt32
  hareWeight : UInt8
  bearWeight : UInt8
  deriving DecidableEq, Repr

namespace LamportPolicy

/-- The down-counting loop over the number of bears. The counter is tested
before it is decremented, so started at `n` it tries `n - 1, ..., 0`. -/
def findBears (policy : LamportPolicy) (remaining placeForHare : UInt32) (hares : ℕ) :
    ℕ → Option UInt32
  | 0 => none
  | n + 1 =>
    let b := UInt32.ofNat n
    if b > remaining / policy.bearWeight.toUInt32 then
      findBears policy remaining placeForHare hares n
    else
      let rem2 := remaining - b * policy.bearWeight.toUInt32
      if rem2 < placeForHare then findBears policy remaining placeForHare hares n
      else if rem2.toNat > hares then findBears policy remaining placeForHare hares n
      else some b

/-- The lambda `add_pid`. The set `used` holds the pids in `chosen` and nothing
else, so `chosen` stands for both. -/
def addPid (chosen : List Pid) (pid : Pid) : List Pid × Bool :=
  if pid ∈ chosen then (chosen, false) else (chosen ++ [pid], true)

def takeBears (policy : LamportPolicy) (chosen : List Pid) (rem : UInt32) (bears : List Pid) :
    List Pid × UInt32 :=
  bears.foldl (fun acc pid => ((addPid acc.1 pid).1, acc.2 - policy.bearWeight.toUInt32))
    (chosen, rem)

/-- The loop over the hares: chosen pids, hares taken, and whether a hare is in. -/
def takeHares (haresNeeded : UInt32) (chosen : List Pid) (takenHares : UInt32)
    (hareInGroup : Bool) : List Pid → List Pid × UInt32 × Bool
  | [] => (chosen, takenHares, hareInGroup)
  | pid :: hares =>
    if takenHares = haresNeeded then (chosen, takenHares, hareInGroup)
    else if (addPid chosen pid).2 then
      takeHares haresNeeded (addPid chosen pid).1 (takenHares + 1) true hares
    else takeHares haresNeeded chosen takenHares hareInGroup hares

def haresOf (policy : LamportPolicy) (rest : List PartyMember) : List Pid :=
  (rest.filter (fun c => c.w = policy.hareWeight.toUInt32)).map PartyMember.pid

def bearsOf (policy : LamportPolicy) (rest : List PartyMember) : List Pid :=
  (rest.filter (fun c => c.w ≠ policy.hareWeight.toUInt32 ∧
    c.w = policy.bearWeight.toUInt32)).map PartyMember.pid

/-- The second half of `TryFormGroup`: leader, bears and hares are put together
and the two final tests are made. -/
def selectGroup (policy : LamportPolicy) (leader : PartyMember) (remaining : UInt32)
    (hareInGroup : Bool) (hares bears : List Pid) (bearsToTake : UInt32) : Bool × List Pid :=
  let (chosen, haresNeeded) :=
    policy.takeBears (addPid [] leader.pid).1 remaining (bears.take bearsToTake.toNat)
  let (chosen, takenHares, hareInGroup) := takeHares haresNeeded chosen 0 hareInGroup hares
  if takenHares ≠ haresNeeded then (false, [])
  else if !hareInGroup then (false, [])
  else (true, chosen)

/-- `TryFormGroup`, returning the verdict and the content of `group`. -/
def tryFormGroup (policy : LamportPolicy) (candidates : List PartyMember) : Bool × List Pid :=
  match candidates with
  | [] => (false, [])
  | leader :: rest =>
    if policy.capacity = 0 then (false, [])
    else if policy.hareWeight ≠ 1 then (false, [])
    else if leader.w > policy.capacity then (false, [])
    else
      let remaining := policy.capacity - leader.w
      let hareInGroup := decide (leader.w = policy.hareWeight.toUInt32)
      let hares := policy.haresOf rest
      let bears := policy.bearsOf rest
      if !hareInGroup && hares.isEmpty then (false, [])
      else
        let placeForHare : UInt32 := if hareInGroup then 0 else 1
        if remaining < placeForHare then (false, [])
        else
          let maxBearsNum := remaining / policy.bearWeight.toUInt32
          let bMax := min maxBearsNum (UInt32.ofNat bears.length)
          match policy.findBears remaining placeForHare hares.length (bMax + 1).toNat with
          | none => (false, [])
          | some bearsToTake =>
            policy.selectGroup leader remaining hareInGroup hares bears bearsToTake

end LamportPolicy

end HaresBears
