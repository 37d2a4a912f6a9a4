import HaresBears.RequestQueue
import Mathlib.Data.Finmap

/-!
What the request queue is for: a finite map from pids to timestamps. An insertion
overwrites the entry of its pid and a removal erases it. The snapshot lists the map in
the order of tickets, and the first pid is the pid of its least entry.
-/
namespace HaresBears

inductive QueueCall where
  | insert (ticket : Ticket)
  | remove (pid : Pid)
  | removeAll (pids : List Pid)

abbrev Contents := Finmap (fun _ : Pid => Timestamp)

namespace Contents

def call (m : Contents) : QueueCall → Contents
  | .insert ticket => m.insert ticket.pid ticket.ts
  | .remove pid => m.erase pid
  | .removeAll pids => pids.foldl (fun m pid => m.erase pid) m

def after (calls : List QueueCall) : Contents := calls.foldl call ∅

end Contents

namespace RequestQueue

def call (q : RequestQueue) : QueueCall → RequestQueue
  | .insert ticket => q.insert ticket
  | .remove pid => q.remove pid
  | .removeAll pids => q.removeAll pids

def Holds (q : RequestQueue) (m : Contents) : Prop :=
  ∀ p, q.lookup p = (m.lookup p).map (Ticket.mk p)

section Entries

variable {q : RequestQueue} {m : Contents}

theorem holds_empty : empty.Holds ∅ := fun _ => rfl

theorem Holds.insert (h : q.Holds m) (ticket : Ticket) :
    (q.insert ticket).Holds (m.insert ticket.pid ticket.ts) := by
  intro p
  rw [lookup_insert]
  by_cases hp : p = ticket.pid
  · subst hp
    rw [if_pos rfl, Finmap.lookup_insert, Option.map_some]
  · rw [if_neg hp, Finmap.lookup_insert_of_ne _ hp, h p]

theorem Holds.remove (h : q.Holds m) (pid : Pid) : (q.remove pid).Holds (m.erase pid) := by
  intro p
  rw [lookup_remove]
  by_cases hp : p = pid
  · subst hp
    rw [if_pos rfl, Finmap.lookup_erase, Option.map_none]
  · rw [if_neg hp, Finmap.lookup_erase_ne hp, h p]

theorem Holds.call (h : q.Holds m) (c : QueueCall) : (q.call c).Holds (m.call c) := by
  cases c with
  | insert ticket => exact h.insert ticket
  | remove pid => exact h.remove pid
  | removeAll pids => exact List.foldl_rel h (fun pid _ _ _ hrel => hrel.remove pid)

theorem holds_after (calls : List QueueCall) :
    (calls.foldl RequestQueue.call empty).Holds (Contents.after calls) :=
  List.foldl_rel holds_empty (fun c _ _ _ hrel => hrel.call c)

theorem Holds.lookup_eq_some (h : q.Holds m) {p : Pid} {t : Ticket} :
    q.lookup p = some t ↔ t.pid = p ∧ m.lookup p = some t.ts := by
  rw [h p, Option.map_eq_some_iff]
  constructor
  · rintro ⟨ts, hts, rfl⟩
    exact ⟨rfl, hts⟩
  · rintro ⟨rfl, hts⟩
    exact ⟨t.ts, hts, rfl⟩

theorem Holds.mem_snapshot (h : q.Holds m) {t : Ticket} :
    t ∈ q.snapshot ↔ m.lookup t.pid = some t.ts := by
  rw [RequestQueue.mem_snapshot, h.lookup_eq_some]
  exact and_iff_right rfl

/-- There is no first pid exactly for the empty map. -/
theorem Holds.getFirstPid_eq_none (h : q.Holds m) : q.getFirstPid = none ↔ m = ∅ := by
  constructor
  · intro hnone
    refine Finmap.ext_lookup (fun p => ?_)
    rw [Finmap.lookup_empty, Option.eq_none_iff_forall_ne_some]
    intro ts hts
    obtain ⟨r, hr⟩ := exists_getFirstPid (h.lookup_eq_some (t := ⟨p, ts⟩) |>.mpr ⟨rfl, hts⟩)
    rw [hnone] at hr
    cases hr
  · rintro rfl
    rw [Option.eq_none_iff_forall_ne_some]
    intro p hp
    obtain ⟨t, ht, -⟩ := RequestQueue.getFirstPid_eq_some.mp hp
    have hts := (h.lookup_eq_some.mp ht).2
    cases hts

/-- The first pid is the pid of the least entry of the map. -/
theorem Holds.getFirstPid_eq_some (h : q.Holds m) {p : Pid} :
    q.getFirstPid = some p ↔ ∃ ts, m.lookup p = some ts ∧
      ∀ r u, m.lookup r = some u → (⟨p, ts⟩ : Ticket) ≤ ⟨r, u⟩ := by
  rw [RequestQueue.getFirstPid_eq_some]
  constructor
  · rintro ⟨t, ht, hmin⟩
    obtain ⟨rfl, hts⟩ := h.lookup_eq_some.mp ht
    exact ⟨t.ts, hts, fun r u hu => hmin r ⟨r, u⟩ (h.lookup_eq_some.mpr ⟨rfl, hu⟩)⟩
  · rintro ⟨ts, hts, hmin⟩
    refine ⟨⟨p, ts⟩, h.lookup_eq_some.mpr ⟨rfl, hts⟩, fun r u hu => ?_⟩
    obtain ⟨rfl, hu⟩ := h.lookup_eq_some.mp hu
    exact hmin u.pid u.ts hu

end Entries

end RequestQueue

end HaresBears
