import HaresBears.OrderedSet
import Mathlib.Data.List.Nodup

/-!
An ordered set whose elements sit in nodes. An iterator is the name of a node: it
points to the same element until the node is erased, and no later node has its
name. Forgetting the nodes leaves an ordered set.
-/

/-- The nodes in the order of their elements, and the first name not used yet. -/
structure NodeSet (α : Type*) [LinearOrder α] where
  nodes : List (ℕ × α)
  next : ℕ
  sorted : (nodes.map Prod.snd).Pairwise (· < ·)
  named : (nodes.map Prod.fst).Nodup
  fresh : ∀ n ∈ nodes, n.1 < next

namespace NodeSet

variable {α : Type*} [LinearOrder α]

def empty : NodeSet α where
  nodes := []
  next := 0
  sorted := (OrderedSet.empty : OrderedSet α).sorted
  named := List.nodup_nil
  fresh _ hn := absurd hn List.not_mem_nil

def values (s : NodeSet α) : OrderedSet α := ⟨s.nodes.map Prod.snd, s.sorted⟩

def deref (s : NodeSet α) (it : ℕ) : Option α :=
  (s.nodes.find? (fun n => n.1 == it)).map Prod.snd

/-- The position is found from the front; an equal element keeps its node. -/
def insertNodes (it : ℕ) (a : α) : List (ℕ × α) → List (ℕ × α) × ℕ × Bool
  | [] => ([(it, a)], it, true)
  | n :: l =>
    if a < n.2 then ((it, a) :: n :: l, it, true)
    else if n.2 < a then (n :: (insertNodes it a l).1, (insertNodes it a l).2)
    else (n :: l, n.1, false)

section Nodes

variable (it : ℕ) (a : α) (l : List (ℕ × α))

theorem insertNodes_values :
    (insertNodes it a l).1.map Prod.snd = (OrderedSet.insertList a (l.map Prod.snd)).1 ∧
      (insertNodes it a l).2.2 = (OrderedSet.insertList a (l.map Prod.snd)).2 := by
  induction l with
  | nil => exact ⟨rfl, rfl⟩
  | cons n l ih =>
    unfold insertNodes
    rw [List.map_cons, OrderedSet.insertList]
    split_ifs
    · exact ⟨rfl, rfl⟩
    · exact ⟨congrArg (n.2 :: ·) ih.1, ih.2⟩
    · exact ⟨rfl, rfl⟩

/-- A new element gets the new node, an old one leaves all nodes as they are. -/
theorem insertNodes_cases :
    (insertNodes it a l).2 = (it, true) ∧ (insertNodes it a l).1.Perm ((it, a) :: l) ∨
      (insertNodes it a l).2.2 = false ∧ (insertNodes it a l).1 = l := by
  induction l with
  | nil => exact Or.inl ⟨rfl, List.Perm.refl _⟩
  | cons n l ih =>
    unfold insertNodes
    split_ifs
    · exact Or.inl ⟨rfl, List.Perm.refl _⟩
    · rcases ih with ⟨hnew, hperm⟩ | ⟨hold, hsame⟩
      · exact Or.inl ⟨hnew, (hperm.cons n).trans (List.Perm.swap ..)⟩
      · exact Or.inr ⟨hold, congrArg (n :: ·) hsame⟩
    · exact Or.inr ⟨rfl, rfl⟩

end Nodes

def insert (s : NodeSet α) (a : α) : NodeSet α × ℕ × Bool :=
  ({ nodes := (insertNodes s.next a s.nodes).1
     next := s.next + 1
     sorted := by
      rw [(insertNodes_values ..).1]
      exact OrderedSet.insertList_sorted s.sorted
     named := by
      rcases insertNodes_cases s.next a s.nodes with ⟨-, hperm⟩ | ⟨-, hsame⟩
      · refine ((hperm.map Prod.fst).nodup_iff).mpr (List.nodup_cons.mpr ⟨?_, s.named⟩)
        intro hmem
        obtain ⟨n, hn, heq⟩ := List.mem_map.mp hmem
        exact Nat.ne_of_lt (s.fresh n hn) heq
      · rw [hsame]
        exact s.named
     fresh := by
      intro n hn
      rcases insertNodes_cases s.next a s.nodes with ⟨-, hperm⟩ | ⟨-, hsame⟩
      · rcases List.mem_cons.mp (hperm.mem_iff.mp hn) with rfl | hn
        · exact Nat.lt_succ_self _
        · exact Nat.lt_succ_of_lt (s.fresh n hn)
      · rw [hsame] at hn
        exact Nat.lt_succ_of_lt (s.fresh n hn) },
    (insertNodes s.next a s.nodes).2)

def without (s : NodeSet α) (it : ℕ) : NodeSet α where
  nodes := s.nodes.filter (fun n => n.1 != it)
  next := s.next
  sorted := s.sorted.sublist (List.filter_sublist.map Prod.snd)
  named := s.named.sublist (List.filter_sublist.map Prod.fst)
  fresh n hn := s.fresh n (List.mem_of_mem_filter hn)

def erase (s : NodeSet α) (it : ℕ) : Option (NodeSet α) :=
  if (s.deref it).isSome then some (s.without it) else none

section Iterators

variable {s : NodeSet α} {it j : ℕ} {a b : α}

theorem deref_eq_some : s.deref it = some a ↔ (it, a) ∈ s.nodes := by
  unfold deref
  rw [Option.map_eq_some_iff]
  constructor
  · rintro ⟨n, hn, rfl⟩
    have hname : n.1 = it := by simpa using List.find?_some hn
    rw [← hname]
    exact List.mem_of_find?_eq_some hn
  · intro hmem
    cases hfind : s.nodes.find? (fun n => n.1 == it) with
    | none =>
      have hno := List.find?_eq_none.mp hfind _ hmem
      simp at hno
    | some n =>
      have hname : n.1 = it := by simpa using List.find?_some hfind
      have hn := List.mem_of_find?_eq_some hfind
      refine ⟨n, rfl, ?_⟩
      rw [(List.nodup_map_iff_inj_on s.named.of_map).mp s.named n hn (it, a) hmem hname]

theorem mem_values : a ∈ s.values ↔ ∃ it, s.deref it = some a := by
  simp only [deref_eq_some, OrderedSet.mem_def, values, List.mem_map, Prod.exists,
    exists_eq_right]

/-- Iterators to one element are equal. -/
theorem deref_unique (hi : s.deref it = some a) (hj : s.deref j = some a) : it = j := by
  have hinj := (List.nodup_map_iff_inj_on s.values.nodup.of_map).mp s.values.nodup
  exact congrArg Prod.fst (hinj _ (deref_eq_some.mp hi) _ (deref_eq_some.mp hj) rfl)

@[simp] theorem deref_empty (it : ℕ) : (empty : NodeSet α).deref it = none := rfl

theorem values_insert (s : NodeSet α) (a : α) :
    (s.insert a).1.values = (s.values.insert a).1 ∧
      (s.insert a).2.2 = (s.values.insert a).2 := by
  obtain ⟨hvalues, hnew⟩ := insertNodes_values s.next a s.nodes
  refine ⟨?_, hnew⟩
  simp only [insert, values, OrderedSet.insert, hvalues]

/-- The iterator returned for a new element points to it and was not in use, and all
other iterators point where they did. -/
theorem deref_insert (hnew : (s.insert a).2.2 = true) :
    s.deref (s.insert a).2.1 = none ∧
      ∀ j, (s.insert a).1.deref j = if j = (s.insert a).2.1 then some a else s.deref j := by
  rcases insertNodes_cases s.next a s.nodes with ⟨hit, hperm⟩ | ⟨hold, -⟩
  · have hname : (s.insert a).2.1 = s.next := congrArg Prod.fst hit
    have hunused : s.deref s.next = none := by
      rw [Option.eq_none_iff_forall_ne_some]
      intro b hb
      exact Nat.lt_irrefl _ (s.fresh _ (deref_eq_some.mp hb))
    rw [hname]
    refine ⟨hunused, fun j => Option.ext (fun b => ?_)⟩
    rw [deref_eq_some]
    change (j, b) ∈ (insertNodes s.next a s.nodes).1 ↔ _
    rw [hperm.mem_iff, List.mem_cons, Prod.mk.injEq, ← deref_eq_some]
    by_cases hj : j = s.next
    · subst hj
      simp [hunused, eq_comm]
    · simp [hj]
  · exact absurd (hold.symm.trans hnew) (by decide)

theorem deref_without (s : NodeSet α) (it j : ℕ) :
    (s.without it).deref j = if j = it then none else s.deref j := by
  refine Option.ext (fun b => ?_)
  rw [deref_eq_some]
  change (j, b) ∈ s.nodes.filter (fun n => n.1 != it) ↔ _
  rw [List.mem_filter, ← deref_eq_some]
  by_cases hj : j = it
  · simp [hj]
  · simp [hj]

theorem values_without (h : s.deref it = some a) :
    (s.without it).values = s.values.erase a := by
  refine OrderedSet.ext (fun b => ?_)
  rw [OrderedSet.mem_erase, mem_values, mem_values]
  simp only [deref_without]
  constructor
  · rintro ⟨j, hj⟩
    by_cases hji : j = it
    · rw [if_pos hji] at hj
      cases hj
    · rw [if_neg hji] at hj
      refine ⟨?_, j, hj⟩
      rintro rfl
      exact hji (deref_unique hj h)
  · rintro ⟨hne, j, hj⟩
    refine ⟨j, ?_⟩
    rw [if_neg ?_, hj]
    rintro rfl
    exact hne (Option.some.inj (hj.symm.trans h))

/-- A node to which an iterator points can be erased. -/
theorem erase_eq (h : s.deref it = some a) : s.erase it = some (s.without it) :=
  if_pos (by simp [h])

end Iterators

end NodeSet
