import HaresBears.FifoNetwork
import HaresBears.LamportQueueAlgorithm

/-!
The runtime of one process and the system of all processes. The runtime feeds
network messages and local events to the algorithm and executes the actions it
returns; the local thread decides when to want and when to release a party.
-/
namespace HaresBears

/-- What the environment supplies to a step: the reading of the steady clock in
nanoseconds and the outcome of the random draw. -/
structure Env where
  now : ℕ
  draw : Bool
  deriving DecidableEq, Repr

def kPartyTime : ℕ := 500

structure LocalThread where
  shouldWant : Bool := true
  timeMark : ℕ := 0
  currentNotification : NotifyType := .exitedParty
  deriving DecidableEq, Repr

namespace LocalThread

def shouldWantParty (l : LocalThread) (env : Env) : Bool :=
  l.currentNotification != .enteredParty && env.draw

def shouldReleaseParty (l : LocalThread) (env : Env) : Bool :=
  if l.currentNotification ≠ .enteredParty then false
  else
    let ms := (env.now - l.timeMark) / 1000000
    decide (ms > kPartyTime)

def poll (l : LocalThread) (env : Env) : LocalThread × List Local :=
  let (l, out) := if l.shouldWant && l.shouldWantParty env then
      ({ l with shouldWant := false }, [⟨.wantParty⟩])
    else (l, [])
  (l, if l.shouldReleaseParty env then out ++ [⟨.releaseParty⟩] else out)

def onNotify (l : LocalThread) (type : NotifyType) (env : Env) : LocalThread :=
  let l := { l with currentNotification := type }
  match type with
  | .enteredParty => { l with timeMark := env.now }
  | .exitedParty => { l with shouldWant := true }

end LocalThread

structure Runtime where
  algorithm : LamportQueueAlgorithm
  localSrc : LocalThread := {}

abbrev Sends := List (FifoNetwork.Packet Pid Message)

def processes (worldSize : Pid) : List Pid := (List.range worldSize.toNat).map UInt32.ofNat

theorem mem_processes {worldSize q : Pid} : q ∈ processes worldSize ↔ q < worldSize := by
  unfold processes
  rw [List.mem_map, UInt32.lt_iff_toNat_lt]
  constructor
  · intro hex
    obtain ⟨n, hn, hq⟩ := hex
    rw [List.mem_range] at hn
    have hw := worldSize.toNat_lt
    rwa [← hq, UInt32.toNat_ofNat_of_lt' (Nat.lt_trans hn hw)]
  · intro hq
    exact ⟨q.toNat, List.mem_range.mpr hq, UInt32.ofNat_toNat⟩

/-- The loop of `MpiTransport::Broadcast` over all other processes. -/
def broadcastDests (self worldSize : Pid) : List Pid :=
  (processes worldSize).filter (fun pid => pid ≠ self)

theorem mem_broadcastDests {self worldSize q : Pid} :
    q ∈ broadcastDests self worldSize ↔ q < worldSize ∧ q ≠ self := by
  unfold broadcastDests
  rw [List.mem_filter, mem_processes, decide_eq_true_eq]

namespace Runtime

/-- Log lines go to standard output only. -/
def execute (env : Env) (r : Runtime) (sends : Sends) : Action → Runtime × Sends
  | .send dest msg => (r, sends ++ [⟨[dest], msg⟩])
  | .broadcast msg =>
    (r, sends ++ [⟨broadcastDests r.algorithm.myPid r.algorithm.cfg.worldSize, msg⟩])
  | .notify type => ({ r with localSrc := r.localSrc.onNotify type env }, sends)
  | .log _ _ => (r, sends)

def drainActions (env : Env) (r : Runtime) (sends : Sends) (actions : List Action) :
    Runtime × Sends :=
  actions.foldl (fun acc action => execute env acc.1 acc.2 action) (r, sends)

def dispatch (env : Env) (r : Runtime) (sends : Sends) (ev : Event) : Runtime × Sends :=
  let (algorithm, actions) := r.algorithm.handleEvent ev
  drainActions env { r with algorithm := algorithm } sends actions

/-- The body of the first loop of `Run`, for one message. -/
def onMsg (r : Runtime) (env : Env) (sender : Pid) (msg : Message) : Runtime × Sends :=
  r.dispatch env [] (.net ⟨sender, msg⟩)

/-- The second loop of `Run`: the local events of one poll. -/
def onPoll (r : Runtime) (env : Env) : Runtime × Sends :=
  let (localSrc, events) := r.localSrc.poll env
  events.foldl (fun acc loc => acc.1.dispatch env acc.2 (.loc loc)) ({ r with localSrc }, [])

end Runtime

/-- The n-process system, over the processes below the world size. A poll of the
transport takes a batch of messages before it handles them; since no handler
looks at a channel, handling them one by one covers every such schedule. -/
def system (cfg : Config) : FifoNetwork.Protocol Pid Runtime Message Env where
  live p := p < cfg.worldSize
  init p := { algorithm := .create p cfg }
  onMsg _ r env sender msg := r.onMsg env sender msg
  onPoll _ r env := r.onPoll env

@[simp] theorem system_onMsg (cfg : Config) (p : Pid) (r : Runtime) (env : Env) (src : Pid)
    (m : Message) : (system cfg).onMsg p r env src m = r.onMsg env src m := rfl

@[simp] theorem system_onPoll (cfg : Config) (p : Pid) (r : Runtime) (env : Env) :
    (system cfg).onPoll p r env = r.onPoll env := rfl

instance (cfg : Config) : DecidablePred (system cfg).live :=
  fun p => inferInstanceAs (Decidable (p < cfg.worldSize))

abbrev World := FifoNetwork.World Pid Runtime Message
abbrev Label := FifoNetwork.Label Pid Env
abbrev Call := FifoNetwork.Call Pid Runtime Message

abbrev algo (w : World) (p : Pid) : LamportQueueAlgorithm := (w.node p).algorithm

structure CliOptions where
  help : Bool := false
  worldSize : Option UInt32 := none
  partyCapacity : Option UInt32 := none
  numBears : Option UInt32 := none

inductive CliOutcome where
  | run (cfg : Config)
  | help
  | abort (code : ℕ) (text : String)

/-- `ApplyCli` on the default configuration, with `mpiSize` the size of the MPI
world. -/
def applyCli (options : CliOptions) (mpiSize : UInt32) : CliOutcome :=
  let cfg : Config := {}
  if options.help then .help
  else
    match options.worldSize.filter (· ≠ mpiSize) with
    | some expected =>
      .abort 2 ("Config error: expected world-size=" ++ toString expected ++ " but MPI has " ++
        toString mpiSize ++ " (use mpirun -np " ++ toString expected ++ ")\n")
    | none =>
      let cfg : Config := { cfg with
        worldSize := mpiSize
        partyCapacity := options.partyCapacity.getD cfg.partyCapacity
        numBears := options.numBears.getD cfg.numBears }
      if cfg.partyCapacity = 0 then
        .abort 2 "Config error: party-capacity must be > 0\n"
      else if cfg.numBears > cfg.worldSize then
        .abort 2 "Config error: num-bears must be <= world_size\n"
      else
        let cfg : Config := { cfg with numHares := cfg.worldSize - cfg.numBears }
        if cfg.numHares = 0 then
          .abort 2 "Config error: computed num_hares is 0; lower num-bears\n"
        else .run cfg

def Accepted (cfg : Config) : Prop := ∃ options mpiSize, applyCli options mpiSize = .run cfg

theorem Accepted.facts {cfg : Config} (h : Accepted cfg) :
    cfg.partyCapacity ≠ 0 ∧ cfg.numHares ≠ 0 ∧ cfg.numHares ≤ cfg.worldSize ∧
      cfg.hareWeight = 1 ∧ cfg.bearWeight = 4 ∧ cfg.partyIdOffset = 10000000 := by
  obtain ⟨options, mpiSize, happ⟩ := h
  unfold applyCli at happ
  split_ifs at happ with hhelp
  split at happ
  · cases happ
  · dsimp only at happ
    split_ifs at happ with hcap hbears hhares
    cases happ
    refine ⟨hcap, hhares, ?_, rfl, rfl, rfl⟩
    rw [gt_iff_lt, UInt32.lt_iff_toNat_lt, not_lt] at hbears
    rw [UInt32.le_iff_toNat_le]
    dsimp only
    rw [UInt32.toNat_sub_of_le _ _ (UInt32.le_iff_toNat_le.mpr hbears)]
    exact Nat.sub_le _ _

theorem Accepted.worldSize_pos {cfg : Config} (h : Accepted cfg) : 0 < cfg.worldSize.toNat := by
  obtain ⟨-, hhares, hle, -⟩ := h.facts
  refine Nat.lt_of_lt_of_le (Nat.pos_of_ne_zero ?_) (UInt32.le_iff_toNat_le.mp hle)
  exact fun hzero => hhares (UInt32.toNat_inj.mp hzero)

def haresOnly (n capacity : UInt32) : Config where
  worldSize := n
  partyCapacity := capacity
  numHares := n
  numBears := 0

theorem haresOnly_accepted {n capacity : UInt32} (hn : n ≠ 0) (hcap : capacity ≠ 0) :
    Accepted (haresOnly n capacity) := by
  refine ⟨{ partyCapacity := some capacity, numBears := some 0 }, n, ?_⟩
  simp [applyCli, haresOnly, hn, hcap]

/-- A poll with a lucky draw, a poll after the party time, and a delivery. -/
def want (p : Pid) : Label := .poll p ⟨0, true⟩

def release (p : Pid) : Label := .poll p ⟨501000000, true⟩

def hand (src dst : Pid) : Label := .deliver src dst ⟨0, true⟩

/-- Two of three hares form a party, and then the third queues for one. -/
def servedRun : List Label :=
  [want 0, want 1, hand 0 1, hand 1 0, hand 0 2, hand 1 2, hand 1 0, hand 2 0, hand 0 1, hand 2 1,
    hand 0 1, hand 0 2, want 2, hand 2 0, hand 2 1, hand 0 2, hand 1 2]

end HaresBears
