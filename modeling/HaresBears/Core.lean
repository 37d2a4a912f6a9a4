import Mathlib.Order.Lattice
import Mathlib.Data.UInt

/-!
The shared data of the program: tickets and their order, the three messages,
the events and actions of a process, and the configuration.
-/
namespace HaresBears

abbrev Timestamp := UInt64
abbrev Pid := UInt32
abbrev PartyId := UInt32
abbrev Weight := UInt32
abbrev LogLevel := UInt8

instance : LinearOrder Pid where
  le_refl := UInt32.le_refl
  le_trans _ _ _ := UInt32.le_trans
  le_antisymm _ _ := UInt32.le_antisymm
  le_total := UInt32.le_total
  lt_iff_le_not_ge a b := by
    simp only [UInt32.lt_iff_toNat_lt, UInt32.le_iff_toNat_le]
    omega
  toDecidableLE := inferInstance
  toDecidableEq := inferInstance
  toDecidableLT := inferInstance

instance : LawfulBEq Pid := inferInstance

/-- Quantifiers over a list of pids are decided along the list, not by trying all
pids. -/
instance (priority := high) decidableForallMemPid {l : List Pid} {I : Pid → Prop}
    [DecidablePred I] : Decidable (∀ p ∈ l, I p) := List.decidableBAll I l

instance (priority := high) decidableExistsMemPid {l : List Pid} {I : Pid → Prop}
    [DecidablePred I] : Decidable (∃ p ∈ l, I p) := List.decidableBEx I l

structure PartyMember where
  pid : Pid
  w : Weight
  deriving DecidableEq, Repr

structure Ticket where
  pid : Pid
  ts : Timestamp
  deriving DecidableEq, Repr

namespace Ticket

/-- `operator<` on tickets. -/
def lt (lhs rhs : Ticket) : Prop :=
  if lhs.ts ≠ rhs.ts then lhs.ts < rhs.ts else lhs.pid < rhs.pid

instance : LT Ticket := ⟨lt⟩

instance (lhs rhs : Ticket) : Decidable (lhs < rhs) :=
  inferInstanceAs (Decidable (if lhs.ts ≠ rhs.ts then lhs.ts < rhs.ts else lhs.pid < rhs.pid))

theorem lt_iff {a b : Ticket} : a < b ↔
    a.ts.toNat < b.ts.toNat ∨ a.ts.toNat = b.ts.toNat ∧ a.pid.toNat < b.pid.toNat := by
  change (if a.ts ≠ b.ts then a.ts < b.ts else a.pid < b.pid) ↔ _
  by_cases h : a.ts = b.ts
  · simp [h, UInt32.lt_iff_toNat_lt]
  · have hne : a.ts.toNat ≠ b.ts.toNat := fun hn => h (UInt64.toNat_inj.mp hn)
    simp [h, hne, UInt64.lt_iff_toNat_lt]

theorem ext_toNat {a b : Ticket} (hts : a.ts.toNat = b.ts.toNat)
    (hpid : a.pid.toNat = b.pid.toNat) : a = b := by
  cases a
  cases b
  exact congrArg₂ Ticket.mk (UInt32.toNat_inj.mp hpid) (UInt64.toNat_inj.mp hts)

instance : LE Ticket := ⟨fun a b => ¬ b < a⟩

theorem le_iff {a b : Ticket} : a ≤ b ↔
    a.ts.toNat < b.ts.toNat ∨ a.ts.toNat = b.ts.toNat ∧ a.pid.toNat ≤ b.pid.toNat := by
  change ¬ b < a ↔ _
  rw [lt_iff]
  omega

instance : LinearOrder Ticket where
  le_refl a := by
    rw [le_iff]
    omega
  le_trans a b c := by
    simp only [le_iff]
    omega
  le_antisymm a b hab hba := by
    rw [le_iff] at hab hba
    apply ext_toNat <;> omega
  le_total a b := by
    simp only [le_iff]
    omega
  lt_iff_le_not_ge a b := by
    rw [lt_iff, le_iff, le_iff]
    omega
  toDecidableLE a b := inferInstanceAs (Decidable (¬ b < a))
  toDecidableEq := inferInstance
  toDecidableLT := inferInstance

end Ticket

structure Request where
  requestTicket : Ticket
  deriving DecidableEq, Repr

structure Reply where
  senderTicket : Ticket
  requestTicket : Ticket
  deriving DecidableEq, Repr

/-- `party_id` is 64 bits wide here and 32 bits wide everywhere else. -/
structure PartyStart where
  senderTicket : Ticket
  partyId : UInt64
  participants : List Pid
  deriving DecidableEq, Repr

inductive Message where
  | request (m : Request)
  | reply (m : Reply)
  | partyStart (m : PartyStart)
  deriving DecidableEq, Repr

def Message.ts : Message → Timestamp
  | .request m => m.requestTicket.ts
  | .reply m => m.senderTicket.ts
  | .partyStart m => m.senderTicket.ts

inductive LocalEventType where
  | wantParty
  | releaseParty
  deriving DecidableEq, Repr

structure Local where
  type : LocalEventType
  deriving DecidableEq, Repr

structure Net where
  sender : Pid
  msg : Message
  deriving DecidableEq, Repr

inductive Event where
  | loc (ev : Local)
  | net (ev : Net)
  deriving DecidableEq, Repr

inductive NotifyType where
  | enteredParty
  | exitedParty
  deriving DecidableEq, Repr

inductive Action where
  | send (dest : Pid) (msg : Message)
  | broadcast (msg : Message)
  | notify (type : NotifyType)
  | log (level : LogLevel) (text : String)
  deriving DecidableEq, Repr

inductive Species where
  | hare
  | bear
  deriving DecidableEq, Repr

def kDefaultWorldSize : UInt32 := 18
def kDefaultPartyCapacity : UInt32 := 6
def kDefaultHares : UInt32 := 13
def kDefaultBears : UInt32 := kDefaultWorldSize - kDefaultHares
def kDefaultPartyIdOffset : UInt32 := 10000000
def kDefaultBearWeight : UInt8 := 4
def kDefaultHareWeight : UInt8 := 1

structure Config where
  worldSize : UInt32 := kDefaultWorldSize
  partyCapacity : UInt32 := kDefaultPartyCapacity
  numHares : UInt32 := kDefaultHares
  numBears : UInt32 := kDefaultBears
  partyIdOffset : UInt32 := kDefaultPartyIdOffset
  bearWeight : UInt8 := kDefaultBearWeight
  hareWeight : UInt8 := kDefaultHareWeight
  deriving DecidableEq, Repr

def speciesOf (p : Pid) (cfg : Config) : Species :=
  if p < cfg.numHares then .hare else .bear

def weightOf (p : Pid) (cfg : Config) : Weight :=
  if p < cfg.numHares then cfg.hareWeight.toUInt32 else cfg.bearWeight.toUInt32

end HaresBears
