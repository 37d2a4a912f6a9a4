import HaresBears.LamportPolicy
import HaresBears.RequestQueue

/-!
One process of the algorithm: a Lamport clock, a replica of the request queue
and four states. Every handler returns the new state and the actions it has
pushed, in order.
-/
namespace HaresBears

structure LamportClock where
  time : Timestamp := 0
  deriving DecidableEq, Repr

namespace LamportClock

def tick (c : LamportClock) : LamportClock := ⟨c.time + 1⟩

def onReceive (c : LamportClock) (remoteTime : Timestamp) : LamportClock :=
  ⟨max c.time remoteTime + 1⟩

def now (c : LamportClock) : Timestamp := c.time

end LamportClock

inductive AppState where
  | idle
  | waitingForReplies
  | queued
  | inParty
  deriving DecidableEq, Repr

structure Party where
  partyLeader : Pid
  partyId : PartyId
  members : List Pid
  deriving DecidableEq, Repr

/-- The constructor of `Party`; the id is cut to 32 bits. -/
def Party.ofStart (ps : PartyStart) : Party :=
  ⟨ps.senderTicket.pid, ps.partyId.toUInt32, ps.participants⟩

structure LamportQueueAlgorithm where
  lamportClock : LamportClock := {}
  currentState : AppState := .idle
  globalQueue : RequestQueue := .empty
  myPid : Pid
  myParty : Option Party := none
  pendingReqTicket : Option Ticket := none
  replyTracker : List Bool
  cfg : Config
  policy : LamportPolicy
  partyCounter : PartyId

namespace LamportQueueAlgorithm

def create (pid : Pid) (cfg : Config) : LamportQueueAlgorithm where
  myPid := pid
  replyTracker := List.replicate cfg.worldSize.toNat false
  cfg := cfg
  policy := ⟨cfg.partyCapacity, cfg.hareWeight, cfg.bearWeight⟩
  partyCounter := pid * cfg.partyIdOffset

def markReply (a : LamportQueueAlgorithm) (p : Pid) : LamportQueueAlgorithm :=
  { a with replyTracker := a.replyTracker.set p.toNat true }

def amLeader (a : LamportQueueAlgorithm) : Bool := a.globalQueue.getFirstPid == some a.myPid

def allRepliesReceived (a : LamportQueueAlgorithm) : Bool := !a.replyTracker.contains false

def resetTracker (a : LamportQueueAlgorithm) : LamportQueueAlgorithm :=
  { a with replyTracker := List.replicate a.cfg.worldSize.toNat false }

def myTicket (a : LamportQueueAlgorithm) : Ticket := ⟨a.myPid, a.lamportClock.now⟩

/-- The sum is 64 bits wide and is cut to 32 bits on return; only the counter
moves. -/
def createPartyId (a : LamportQueueAlgorithm) : PartyId × LamportQueueAlgorithm :=
  ((a.partyCounter.toUInt64 + a.lamportClock.now).toUInt32,
    { a with partyCounter := a.partyCounter + 1 })

def goToParty (a : LamportQueueAlgorithm) (partyStart : PartyStart) (actions : List Action) :
    LamportQueueAlgorithm × List Action :=
  let a := { a with
    currentState := .inParty
    myParty := some (Party.ofStart partyStart)
    pendingReqTicket := none }
  let a := a.resetTracker
  ({ a with globalQueue := a.globalQueue.removeAll partyStart.participants },
    actions ++ [.notify .enteredParty])

def tryBuildParty (a : LamportQueueAlgorithm) : Option (List Pid) :=
  let candidates := a.globalQueue.snapshot.map
    (fun candidate => ⟨candidate.pid, weightOf candidate.pid a.cfg⟩)
  let result := a.policy.tryFormGroup candidates
  if !result.1 then none else some result.2

def membersText (participants : List Pid) : String :=
  String.intercalate "," (participants.map toString)

def startText (myPid : Pid) (group : PartyStart) : String :=
  "PartyStart: leader=" ++ toString myPid ++ " party_id=" ++ toString group.partyId ++
    " size=" ++ toString group.participants.length ++ " members=[" ++
    membersText group.participants ++ "]"

def receivedText (group : PartyStart) : String :=
  "PartyStart received: leader=" ++ toString group.senderTicket.pid ++ " party_id=" ++
    toString group.partyId ++ " size=" ++ toString group.participants.length

/-- The second half of `Recompute`: a queued process at the head of its replica
starts a party if the policy finds one. -/
def lead (a : LamportQueueAlgorithm) (actions : List Action) :
    LamportQueueAlgorithm × List Action :=
  if a.currentState = .queued ∧ a.amLeader = true then
    match a.tryBuildParty with
    | none => (a, actions ++ [.log 0 "Policy rejected group, leader waiting"])
    | some participants =>
      if a.myPid ∉ participants then
        (a, actions ++ [.log 0 "Leader pid missing from group, skipping PartyStart"])
      else
        let a := { a with lamportClock := a.lamportClock.tick }
        let ticket := a.myTicket
        let (partyId, a) := a.createPartyId
        let group : PartyStart := ⟨ticket, partyId.toUInt64, participants⟩
        let (a, actions) := a.goToParty group (actions ++ [.log 0 (startText a.myPid group)])
        (a, actions ++ [.broadcast (.partyStart group)])
  else (a, actions)

def recompute (a : LamportQueueAlgorithm) (actions : List Action) :
    LamportQueueAlgorithm × List Action :=
  if a.currentState = .waitingForReplies then
    if a.allRepliesReceived then
      { a with lamportClock := a.lamportClock.tick, currentState := .queued }.lead actions
    else (a, actions)
  else a.lead actions

def onRequest (a : LamportQueueAlgorithm) (pid : Pid) (requestReceived : Request) :
    LamportQueueAlgorithm × List Action :=
  let ticket := requestReceived.requestTicket
  let a := { a with
    lamportClock := a.lamportClock.onReceive ticket.ts
    globalQueue := a.globalQueue.insert ticket }
  let reply : Reply := ⟨a.myTicket, ticket⟩
  a.recompute [.send pid (.reply reply)]

def onReply (a : LamportQueueAlgorithm) (pid : Pid) (reply : Reply) :
    LamportQueueAlgorithm × List Action :=
  let a := { a with lamportClock := a.lamportClock.onReceive reply.senderTicket.ts }
  if a.currentState ≠ .waitingForReplies then (a, [])
  else (a.markReply pid).recompute []

def onPartyStart (a : LamportQueueAlgorithm) (_pid : Pid) (partyStartReceived : PartyStart) :
    LamportQueueAlgorithm × List Action :=
  let a := { a with
    lamportClock := a.lamportClock.onReceive partyStartReceived.senderTicket.ts
    globalQueue := a.globalQueue.removeAll partyStartReceived.participants }
  if a.myPid ∈ partyStartReceived.participants then
    a.goToParty partyStartReceived [.log 0 (receivedText partyStartReceived)]
  else a.recompute []

def onMsg (a : LamportQueueAlgorithm) (pid : Pid) : Message →
    LamportQueueAlgorithm × List Action
  | .request m => a.onRequest pid m
  | .reply m => a.onReply pid m
  | .partyStart m => a.onPartyStart pid m

def onLocal (a : LamportQueueAlgorithm) (ev : Local) (actions : List Action) :
    LamportQueueAlgorithm × List Action :=
  let a := { a with lamportClock := a.lamportClock.tick }
  match ev.type with
  | .wantParty =>
    if a.currentState = .idle then
      let a := { a with currentState := .waitingForReplies }
      let a := (a.resetTracker).markReply a.myPid
      let ticket := a.myTicket
      ({ a with
          pendingReqTicket := some ticket
          globalQueue := a.globalQueue.insert ticket },
        actions ++ [.broadcast (.request ⟨ticket⟩)])
    else (a, actions)
  | .releaseParty =>
    let a := { a with myParty := none, pendingReqTicket := none }
    ({ a.resetTracker with currentState := .idle }, actions ++ [.notify .exitedParty])

def onNet (a : LamportQueueAlgorithm) (ev : Net) (actions : List Action) :
    LamportQueueAlgorithm × List Action :=
  let (a, tempVec) := a.onMsg ev.sender ev.msg
  (a, actions ++ tempVec)

def handleEvent (a : LamportQueueAlgorithm) : Event → LamportQueueAlgorithm × List Action
  | .loc ev => a.onLocal ev []
  | .net ev => a.onNet ev []

end LamportQueueAlgorithm

end HaresBears
