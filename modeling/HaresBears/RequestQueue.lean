import HaresBears.Core
import HaresBears.OrderedSet

/-!
The replicated request queue: an ordered set of tickets and a map from a pid to
its element of the set. The two containers are kept in step by every operation,
so a queue is a finite map from pids to tickets listed in ticket order.
-/
namespace HaresBears

/-- The two containers. A set iterator is modelled by the ticket it points to;
`IteratorQueue` keeps the iterators. -/
structure QueueData where
  queue : OrderedSet Ticket
  pidToTicket : Pid → Option Ticket

namespace QueueData

def insert (d : QueueData) (ticket : Ticket) : QueueData :=
  let d : QueueData := match d.pidToTicket ticket.pid with
    | some it =>
      { queue := d.queue.erase it
        pidToTicket := Function.update d.pidToTicket ticket.pid none }
    | none => d
  let (queue, inserted) := d.queue.insert ticket
  if inserted then
    { queue := queue, pidToTicket := Function.update d.pidToTicket ticket.pid (some ticket) }
  else { d with queue := queue }

def remove (d : QueueData) (pid : Pid) : QueueData :=
  match d.pidToTicket pid with
  | none => d
  | some it =>
    { queue := d.queue.erase it, pidToTicket := Function.update d.pidToTicket pid none }

/-- Each map entry points to the set element with its pid, and each element is
pointed to. -/
def Linked (d : QueueData) : Prop :=
  ∀ pid t, d.pidToTicket pid = some t ↔ t ∈ d.queue ∧ t.pid = pid

theorem Linked.not_mem {d : QueueData} (h : d.Linked) {pid : Pid}
    (hn : d.pidToTicket pid = none) {t : Ticket} (ht : t.pid = pid) : t ∉ d.queue := by
  intro hm
  have hs := (h pid t).mpr ⟨hm, ht⟩
  rw [hn] at hs
  cases hs

theorem remove_pidToTicket (d : QueueData) (pid : Pid) :
    (d.remove pid).pidToTicket = Function.update d.pidToTicket pid none := by
  unfold remove
  cases hl : d.pidToTicket pid with
  | none => exact (Function.update_eq_self_iff.mpr hl.symm).symm
  | some it => rfl

theorem Linked.remove {d : QueueData} (h : d.Linked) (pid : Pid) : (d.remove pid).Linked := by
  intro p t
  unfold QueueData.remove
  cases hl : d.pidToTicket pid with
  | none => exact h p t
  | some it =>
    obtain ⟨hit, hpid⟩ := (h pid it).mp hl
    dsimp only
    by_cases hp : p = pid
    · subst hp
      rw [Function.update_self, OrderedSet.mem_erase]
      refine ⟨fun hx => (nomatch hx), ?_⟩
      intro hex
      obtain ⟨⟨hne, hm⟩, ht⟩ := hex
      have hs := (h p t).mpr ⟨hm, ht⟩
      rw [hl] at hs
      exact absurd (Option.some.inj hs).symm hne
    · rw [Function.update_of_ne hp, h p t, OrderedSet.mem_erase]
      constructor
      · intro hex
        obtain ⟨hm, ht⟩ := hex
        refine ⟨⟨?_, hm⟩, ht⟩
        rintro rfl
        exact hp (ht.symm.trans hpid)
      · exact fun hx => ⟨hx.1.2, hx.2⟩

/-- Dropping the old ticket of the pid first is `remove`. -/
theorem insert_eq (d : QueueData) (ticket : Ticket) :
    d.insert ticket =
      if ((d.remove ticket.pid).queue.insert ticket).2 then
        { queue := ((d.remove ticket.pid).queue.insert ticket).1
          pidToTicket :=
            Function.update (d.remove ticket.pid).pidToTicket ticket.pid (some ticket) }
      else { d.remove ticket.pid with queue := ((d.remove ticket.pid).queue.insert ticket).1 } := by
  unfold insert remove
  cases d.pidToTicket ticket.pid <;> rfl

/-- The insertion into the set inside `insert` always succeeds. -/
theorem insert_inserted {d : QueueData} (h : d.Linked) (ticket : Ticket) :
    ((d.remove ticket.pid).queue.insert ticket).2 = true := by
  apply OrderedSet.insert_new.mpr
  apply (h.remove ticket.pid).not_mem _ rfl
  rw [remove_pidToTicket, Function.update_self]

theorem insert_pidToTicket {d : QueueData} (h : d.Linked) (ticket : Ticket) :
    (d.insert ticket).pidToTicket = Function.update d.pidToTicket ticket.pid (some ticket) := by
  rw [insert_eq, if_pos (insert_inserted h ticket)]
  dsimp only
  rw [remove_pidToTicket, Function.update_idem]

theorem Linked.insert {d : QueueData} (h : d.Linked) (ticket : Ticket) :
    (d.insert ticket).Linked := by
  intro p t
  have hr := h.remove ticket.pid
  rw [insert_eq, if_pos (insert_inserted h ticket)]
  dsimp only
  rw [OrderedSet.mem_insert]
  by_cases hp : p = ticket.pid
  · subst hp
    rw [Function.update_self]
    constructor
    · intro hx
      obtain rfl := Option.some.inj hx
      exact ⟨Or.inl rfl, rfl⟩
    · intro hex
      obtain ⟨hx, ht⟩ := hex
      rcases hx with rfl | hm
      · rfl
      · refine absurd hm (hr.not_mem ?_ ht)
        rw [remove_pidToTicket, Function.update_self]
  · rw [Function.update_of_ne hp, hr p t]
    constructor
    · exact fun hx => ⟨Or.inr hx.1, hx.2⟩
    · intro hex
      obtain ⟨hx, ht⟩ := hex
      rcases hx with rfl | hm
      · exact absurd ht.symm hp
      · exact ⟨hm, ht⟩

end QueueData

structure RequestQueue extends QueueData where
  linked : toQueueData.Linked

namespace RequestQueue

def empty : RequestQueue where
  queue := OrderedSet.empty
  pidToTicket := fun _ => none
  linked := by
    intro pid t
    simp

def insert (q : RequestQueue) (ticket : Ticket) : RequestQueue :=
  ⟨q.toQueueData.insert ticket, q.linked.insert ticket⟩

def remove (q : RequestQueue) (pid : Pid) : RequestQueue :=
  ⟨q.toQueueData.remove pid, q.linked.remove pid⟩

/-- `Remove(pids, num_pids)`. -/
def removeAll (q : RequestQueue) (pids : List Pid) : RequestQueue := pids.foldl remove q

def getFirstPid (q : RequestQueue) : Option Pid := q.queue.first?.map Ticket.pid

def snapshot (q : RequestQueue) : List Ticket := q.queue.elems

abbrev lookup (q : RequestQueue) (pid : Pid) : Option Ticket := q.pidToTicket pid

theorem lookup_pid {q : RequestQueue} {pid : Pid} {t : Ticket} (h : q.lookup pid = some t) :
    t.pid = pid := ((q.linked pid t).mp h).2

theorem mem_snapshot {q : RequestQueue} {t : Ticket} :
    t ∈ q.snapshot ↔ q.lookup t.pid = some t :=
  ⟨fun h => (q.linked t.pid t).mpr ⟨h, rfl⟩, fun h => ((q.linked t.pid t).mp h).1⟩

theorem snapshot_sorted (q : RequestQueue) : q.snapshot.Pairwise (· < ·) := q.queue.sorted

@[simp] theorem lookup_empty (pid : Pid) : empty.lookup pid = none := rfl

theorem lookup_insert (q : RequestQueue) (ticket : Ticket) (p : Pid) :
    (q.insert ticket).lookup p = if p = ticket.pid then some ticket else q.lookup p := by
  have h := congrFun (QueueData.insert_pidToTicket q.linked ticket) p
  rwa [Function.update_apply] at h

theorem lookup_remove (q : RequestQueue) (pid p : Pid) :
    (q.remove pid).lookup p = if p = pid then none else q.lookup p := by
  have h := congrFun (QueueData.remove_pidToTicket q.toQueueData pid) p
  rwa [Function.update_apply] at h

theorem lookup_removeAll (q : RequestQueue) (pids : List Pid) (p : Pid) :
    (q.removeAll pids).lookup p = if p ∈ pids then none else q.lookup p := by
  unfold removeAll
  induction pids generalizing q with
  | nil => simp
  | cons a pids ih =>
    rw [List.foldl_cons, ih, lookup_remove]
    by_cases ha : p = a
    · simp [ha]
    · simp [ha]

theorem eq_empty {q : RequestQueue} (h : ∀ p, q.lookup p = none) : q = empty := by
  obtain ⟨⟨⟨elems, sorted⟩, pidToTicket⟩, linked⟩ := q
  have hmap : pidToTicket = fun _ => none := funext h
  have helems : elems = [] := by
    rw [List.eq_nil_iff_forall_not_mem]
    intro t ht
    have hs : pidToTicket t.pid = some t := (linked t.pid t).mpr ⟨ht, rfl⟩
    rw [hmap] at hs
    cases hs
  subst hmap helems
  rfl

theorem getFirstPid_eq_some {q : RequestQueue} {p : Pid} :
    q.getFirstPid = some p ↔
      ∃ t, q.lookup p = some t ∧ ∀ r u, q.lookup r = some u → t ≤ u := by
  unfold getFirstPid
  rw [Option.map_eq_some_iff]
  constructor
  · rintro ⟨t, ht, rfl⟩
    obtain ⟨hm, hmin⟩ := OrderedSet.first?_eq_some.mp ht
    exact ⟨t, mem_snapshot.mp hm, fun r u hu => hmin u ((q.linked r u).mp hu).1⟩
  · rintro ⟨t, ht, hmin⟩
    obtain ⟨hm, hp⟩ := (q.linked p t).mp ht
    refine ⟨t, OrderedSet.first?_eq_some.mpr ⟨hm, ?_⟩, hp⟩
    exact fun u hu => hmin u.pid u (mem_snapshot.mp hu)

theorem exists_getFirstPid {q : RequestQueue} {p : Pid} {t : Ticket} (h : q.lookup p = some t) :
    ∃ r, q.getFirstPid = some r := by
  have hm := ((q.linked p t).mp h).1
  unfold getFirstPid OrderedSet.first?
  cases hq : q.queue.elems with
  | nil =>
    change t ∈ q.queue.elems at hm
    rw [hq] at hm
    cases hm
  | cons u us => exact ⟨u.pid, rfl⟩

/-- The pids of a snapshot are pairwise distinct. -/
theorem snapshot_pids_nodup (q : RequestQueue) : (q.snapshot.map Ticket.pid).Nodup := by
  refine (List.nodup_map_iff_inj_on q.queue.nodup).mpr ?_
  intro t ht u hu hpid
  have h1 := mem_snapshot.mp ht
  have h2 := mem_snapshot.mp hu
  rw [hpid, h2] at h1
  exact (Option.some.inj h1).symm

end RequestQueue

end HaresBears
