import HaresBears.NodeSet
import HaresBears.QueueContents

/-!
The request queue with its iterators. The map holds iterators into the set, and an
erasure through one that points nowhere has no result. No sequence of calls comes to
that: the two containers stay in bijection, and the queue is the finite map of its
contents.
-/
namespace HaresBears

/-- A fold of steps that keep a relation and never fail. -/
theorem foldlM_rel {α β γ : Type*} {R : β → γ → Prop} {f : β → α → Option β} {g : γ → α → γ}
    (hstep : ∀ a b c, R b c → ∃ b', f b a = some b' ∧ R b' (g c a)) (l : List α) {b : β} {c : γ}
    (h : R b c) : ∃ b', l.foldlM f b = some b' ∧ R b' (l.foldl g c) := by
  induction l generalizing b c with
  | nil => exact ⟨b, rfl, h⟩
  | cons a l ih =>
    obtain ⟨b₁, hb₁, h₁⟩ := hstep a b c h
    obtain ⟨b', hb', h'⟩ := ih h₁
    refine ⟨b', ?_, h'⟩
    rw [List.foldlM_cons, hb₁]
    exact hb'

structure IteratorQueue where
  queue : NodeSet Ticket
  pidToTicket : Pid → Option ℕ

namespace IteratorQueue

def empty : IteratorQueue := ⟨NodeSet.empty, fun _ => none⟩

/-- The element in the set goes first, then the entry of the map. -/
def eraseEntry (d : IteratorQueue) (pid : Pid) (it : ℕ) : Option IteratorQueue := do
  let queue ← d.queue.erase it
  return ⟨queue, Function.update d.pidToTicket pid none⟩

def remove (d : IteratorQueue) (pid : Pid) : Option IteratorQueue :=
  match d.pidToTicket pid with
  | none => some d
  | some it => d.eraseEntry pid it

/-- `Remove(pids, num_pids)`. -/
def removeAll (d : IteratorQueue) (pids : List Pid) : Option IteratorQueue :=
  pids.foldlM remove d

/-- The first part of `Insert`: an older ticket of the pid goes. -/
def dropOld (d : IteratorQueue) (ticket : Ticket) : Option IteratorQueue :=
  match d.pidToTicket ticket.pid with
  | some it => d.eraseEntry ticket.pid it
  | none => some d

/-- The second part of `Insert`. -/
def place (d : IteratorQueue) (ticket : Ticket) : Option IteratorQueue :=
  let (queue, it, inserted) := d.queue.insert ticket
  if inserted then do
    let pointee ← queue.deref it
    return ⟨queue, Function.update d.pidToTicket pointee.pid (some it)⟩
  else some { d with queue := queue }

def insert (d : IteratorQueue) (ticket : Ticket) : Option IteratorQueue := do
  let d ← d.dropOld ticket
  d.place ticket

def getFirstPid (d : IteratorQueue) : Option Pid := d.queue.values.first?.map Ticket.pid

def snapshot (d : IteratorQueue) : List Ticket := d.queue.values.elems

def call (d : IteratorQueue) : QueueCall → Option IteratorQueue
  | .insert ticket => d.insert ticket
  | .remove pid => d.remove pid
  | .removeAll pids => d.removeAll pids

def run (calls : List QueueCall) : Option IteratorQueue := calls.foldlM call empty

def pointee (d : IteratorQueue) (pid : Pid) : Option Ticket :=
  (d.pidToTicket pid).bind d.queue.deref

def content (d : IteratorQueue) (pid : Pid) : Option Timestamp := (d.pointee pid).map Ticket.ts

/-- The containers are in bijection: the iterator of a pid points to an element with
that pid, and each element is pointed to by the iterator of its pid. -/
def Linked (d : IteratorQueue) : Prop :=
  ∀ pid it, d.pidToTicket pid = some it ↔ ∃ t, d.queue.deref it = some t ∧ t.pid = pid

/-- The containers are linked, and with each iterator taken for the ticket it points
to they are `q`. -/
structure Represents (d : IteratorQueue) (q : QueueData) : Prop where
  linked : d.Linked
  values : d.queue.values = q.queue
  pointee : ∀ pid, d.pointee pid = q.pidToTicket pid

section Calls

variable {d : IteratorQueue} {q : QueueData} {pid : Pid} {ticket : Ticket}

theorem represents_empty : Represents empty RequestQueue.empty.toQueueData where
  linked pid it := by simp [empty]
  values := rfl
  pointee _ := rfl

/-- The iterator of a pid points to a ticket of that pid. -/
theorem Linked.pid_eq (h : d.Linked) {it : ℕ} {t : Ticket} (hit : d.pidToTicket pid = some it)
    (ht : d.queue.deref it = some t) : t.pid = pid := by
  obtain ⟨u, hu, hpid⟩ := (h pid it).mp hit
  obtain rfl := Option.some.inj (ht.symm.trans hu)
  exact hpid

/-- The map has no iterator that points nowhere. -/
theorem Linked.ne_dangling (h : d.Linked) {it : ℕ} (hunused : d.queue.deref it = none) (pid : Pid) :
    d.pidToTicket pid ≠ some it := by
  intro hit
  obtain ⟨t, ht, -⟩ := (h pid it).mp hit
  rw [hunused] at ht
  cases ht

theorem Represents.entry_eq_none (h : Represents d q) (hnone : q.pidToTicket pid = none) :
    d.pidToTicket pid = none := by
  rw [Option.eq_none_iff_forall_ne_some]
  intro it hit
  obtain ⟨t, ht, -⟩ := (h.linked pid it).mp hit
  have hp := h.pointee pid
  rw [hnone, IteratorQueue.pointee, hit, Option.bind_some, ht] at hp
  cases hp

theorem Represents.data_linked (h : Represents d q) : q.Linked := by
  intro pid t
  rw [← h.pointee, ← h.values, NodeSet.mem_values, IteratorQueue.pointee,
    Option.bind_eq_some_iff]
  constructor
  · rintro ⟨it, hit, ht⟩
    exact ⟨⟨it, ht⟩, h.linked.pid_eq hit ht⟩
  · rintro ⟨⟨it, ht⟩, hpid⟩
    exact ⟨it, (h.linked pid it).mpr ⟨t, ht, hpid⟩, ht⟩

/-- Another pid keeps its ticket when its iterator points where it did. -/
theorem pointee_update_of_ne {queue : NodeSet Ticket} {p : Pid} {it : Option ℕ} (hp : p ≠ pid)
    (hsame : ∀ j, d.pidToTicket p = some j → queue.deref j = d.queue.deref j) :
    pointee ⟨queue, Function.update d.pidToTicket pid it⟩ p = d.pointee p := by
  simp only [pointee, Function.update_of_ne hp]
  exact Option.bind_congr hsame

/-- Erasing an entry that points to an element keeps the containers linked. -/
theorem Linked.without (h : d.Linked) {it : ℕ} {t : Ticket} (hit : d.pidToTicket pid = some it)
    (ht : d.queue.deref it = some t) :
    Linked ⟨d.queue.without it, Function.update d.pidToTicket pid none⟩ := by
  have hpid := h.pid_eq hit ht
  intro p j
  simp only [NodeSet.deref_without]
  by_cases hj : j = it
  · subst hj
    have hnot : Function.update d.pidToTicket pid none p ≠ some j := by
      by_cases hp : p = pid
      · simp [hp]
      · rw [Function.update_of_ne hp]
        intro hpj
        exact hp ((h.pid_eq hpj ht).symm.trans hpid)
    simp [hnot]
  · rw [if_neg hj, ← h p j]
    by_cases hp : p = pid
    · subst hp
      rw [Function.update_self, hit]
      simp [Ne.symm hj]
    · rw [Function.update_of_ne hp]

/-- A removal meets no dangling iterator. -/
theorem Represents.remove (h : Represents d q) (pid : Pid) :
    ∃ d', d.remove pid = some d' ∧ Represents d' (q.remove pid) := by
  unfold IteratorQueue.remove QueueData.remove
  rw [← h.pointee, IteratorQueue.pointee]
  cases hit : d.pidToTicket pid with
  | none => exact ⟨d, rfl, h⟩
  | some it =>
    obtain ⟨t, ht, hpid⟩ := (h.linked pid it).mp hit
    simp only [eraseEntry, NodeSet.erase_eq ht, Option.bind_eq_bind, Option.bind_some, ht]
    refine ⟨_, rfl, h.linked.without hit ht, ?_, ?_⟩
    · rw [NodeSet.values_without ht, h.values]
    · intro p
      by_cases hp : p = pid
      · simp [IteratorQueue.pointee, hp]
      · dsimp only
        rw [Function.update_of_ne hp, ← h.pointee p]
        refine pointee_update_of_ne hp (fun j hj => ?_)
        rw [NodeSet.deref_without, if_neg ?_]
        rintro rfl
        exact hp ((h.linked.pid_eq hj ht).symm.trans hpid)

/-- A new element with a new pid and its iterator keep the containers linked. -/
theorem Linked.place (h : d.Linked) (hnone : d.pidToTicket ticket.pid = none)
    (hnew : (d.queue.insert ticket).2.2 = true) :
    Linked ⟨(d.queue.insert ticket).1,
      Function.update d.pidToTicket ticket.pid (some (d.queue.insert ticket).2.1)⟩ := by
  obtain ⟨hunused, hderef⟩ := NodeSet.deref_insert hnew
  intro p j
  simp only [hderef]
  by_cases hp : p = ticket.pid
  · subst hp
    rw [Function.update_self, Option.some.injEq, eq_comm]
    by_cases hj : j = (d.queue.insert ticket).2.1
    · simp [hj]
    · have hno : ¬ ∃ t, d.queue.deref j = some t ∧ t.pid = ticket.pid := by
        rw [← h, hnone]
        simp
      simp only [hj, if_false, hno]
  · rw [Function.update_of_ne hp]
    by_cases hj : j = (d.queue.insert ticket).2.1
    · subst hj
      simp [h.ne_dangling hunused p, Ne.symm hp]
    · rw [if_neg hj, h p j]

/-- A ticket of a pid without an entry is new to the set. -/
theorem Represents.place (h : Represents d q) (hnone : q.pidToTicket ticket.pid = none) :
    (d.queue.insert ticket).2.2 = true ∧ ∃ d', d.place ticket = some d' ∧
      Represents d' ⟨(q.queue.insert ticket).1,
        Function.update q.pidToTicket ticket.pid (some ticket)⟩ := by
  obtain ⟨hvalues, hflag⟩ := NodeSet.values_insert d.queue ticket
  have hnew : (d.queue.insert ticket).2.2 = true := by
    rw [hflag, h.values]
    exact OrderedSet.insert_new.mpr (h.data_linked.not_mem hnone rfl)
  obtain ⟨hunused, hderef⟩ := NodeSet.deref_insert hnew
  refine ⟨hnew, _, ?_, h.linked.place (h.entry_eq_none hnone) hnew, ?_, ?_⟩
  · simp only [IteratorQueue.place, hnew, if_true, hderef, Option.bind_eq_bind, Option.bind_some]
    rfl
  · rw [hvalues, h.values]
  · intro p
    by_cases hp : p = ticket.pid
    · simp [IteratorQueue.pointee, hp, hderef]
    · dsimp only
      rw [Function.update_of_ne hp, ← h.pointee p]
      refine pointee_update_of_ne hp (fun j hj => ?_)
      rw [hderef, if_neg ?_]
      rintro rfl
      exact h.linked.ne_dangling hunused p hj

/-- `dropOld` makes the same two erasures as `remove`. -/
theorem dropOld_eq (d : IteratorQueue) (ticket : Ticket) :
    d.dropOld ticket = d.remove ticket.pid := by
  unfold dropOld IteratorQueue.remove
  cases d.pidToTicket ticket.pid <;> rfl

/-- An insertion meets no dangling iterator, and its ticket is new to the set. -/
theorem Represents.insert (h : Represents d q) (ticket : Ticket) :
    (∃ d', d.dropOld ticket = some d' ∧ (d'.queue.insert ticket).2.2 = true) ∧
      ∃ d', d.insert ticket = some d' ∧ Represents d' (q.insert ticket) := by
  obtain ⟨d₁, hdrop, h₁⟩ := h.remove ticket.pid
  rw [← dropOld_eq] at hdrop
  have hnone : (q.remove ticket.pid).pidToTicket ticket.pid = none := by
    rw [QueueData.remove_pidToTicket, Function.update_self]
  obtain ⟨hnew, d', hplace, h'⟩ := h₁.place hnone
  refine ⟨⟨d₁, hdrop, hnew⟩, d', ?_, ?_⟩
  · rw [IteratorQueue.insert, hdrop]
    exact hplace
  · rw [QueueData.insert_eq, if_pos (QueueData.insert_inserted h.data_linked ticket)]
    exact h'

end Calls

section Runs

variable {d : IteratorQueue} {q : RequestQueue}

theorem Represents.call (h : Represents d q.toQueueData) (c : QueueCall) :
    ∃ d', d.call c = some d' ∧ Represents d' (q.call c).toQueueData := by
  cases c with
  | insert ticket => exact (h.insert ticket).2
  | remove pid => exact h.remove pid
  | removeAll pids =>
    exact foldlM_rel (R := fun d (q : RequestQueue) => Represents d q.toQueueData)
      (fun pid _ _ hrep => hrep.remove pid) pids h

theorem Represents.content_eq (h : Represents d q.toQueueData) {m : Contents} (hm : q.Holds m)
    (pid : Pid) : d.content pid = m.lookup pid := by
  have hpid : d.pointee pid = (m.lookup pid).map (Ticket.mk pid) :=
    (h.pointee pid).trans (hm pid)
  rw [content, hpid, Option.map_map]
  exact Option.map_id'

theorem Represents.snapshot_eq (h : Represents d q.toQueueData) : d.snapshot = q.snapshot :=
  congrArg OrderedSet.elems h.values

theorem Represents.getFirstPid_eq (h : Represents d q.toQueueData) :
    d.getFirstPid = q.getFirstPid :=
  congrArg (fun s => s.first?.map Ticket.pid) h.values

/-- Every sequence of calls has a result. -/
theorem run_represents (calls : List QueueCall) :
    ∃ d, run calls = some d ∧
      Represents d (calls.foldl RequestQueue.call RequestQueue.empty).toQueueData :=
  foldlM_rel (R := fun d (q : RequestQueue) => Represents d q.toQueueData)
    (fun c _ _ hrep => hrep.call c) calls represents_empty

/-- The queue refines a finite map: after every sequence of calls the containers are in
bijection, the next insertion puts a new ticket into the set, and the entries, the
snapshot and the first pid are those of the map. -/
theorem requestQueue_refines_map (calls : List QueueCall) :
    ∃ d, run calls = some d ∧ d.Linked ∧
      (∀ ticket, ∃ d', d.dropOld ticket = some d' ∧ (d'.queue.insert ticket).2.2 = true) ∧
      (∀ p, d.content p = (Contents.after calls).lookup p) ∧
      d.snapshot.Pairwise (· < ·) ∧
      (∀ t, t ∈ d.snapshot ↔ (Contents.after calls).lookup t.pid = some t.ts) ∧
      (d.getFirstPid = none ↔ Contents.after calls = ∅) ∧
      ∀ p, d.getFirstPid = some p ↔ ∃ ts, (Contents.after calls).lookup p = some ts ∧
        ∀ r u, (Contents.after calls).lookup r = some u → (⟨p, ts⟩ : Ticket) ≤ ⟨r, u⟩ := by
  obtain ⟨d, hrun, hrep⟩ := run_represents calls
  have hholds := RequestQueue.holds_after calls
  refine ⟨d, hrun, hrep.linked, fun ticket => (hrep.insert ticket).1, hrep.content_eq hholds,
    d.queue.values.sorted, fun t => ?_, ?_, fun p => ?_⟩
  · rw [hrep.snapshot_eq]
    exact hholds.mem_snapshot
  · rw [hrep.getFirstPid_eq]
    exact hholds.getFirstPid_eq_none
  · rw [hrep.getFirstPid_eq]
    exact hholds.getFirstPid_eq_some

/-- An older ticket replaces the entry of its pid, and absent pids are passed over. -/
example : (run [.insert ⟨1, 5⟩, .insert ⟨2, 3⟩, .insert ⟨1, 2⟩, .insert ⟨3, 2⟩,
    .removeAll [2, 7, 2]]).map snapshot = some [⟨1, 2⟩, ⟨3, 2⟩] := by decide

end Runs

end IteratorQueue

end HaresBears
