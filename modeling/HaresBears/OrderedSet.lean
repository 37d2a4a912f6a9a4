import Mathlib.Order.Lattice
import Mathlib.Data.List.Basic

/-!
A finite set kept as a strictly increasing list, with the operations of an
ordered container: insertion that reports whether the element was new, removal
and access to the least element.
-/

structure OrderedSet (α : Type*) [LinearOrder α] where
  elems : List α
  sorted : elems.Pairwise (· < ·)

namespace OrderedSet

variable {α : Type*} [LinearOrder α]

def empty : OrderedSet α := ⟨[], List.Pairwise.nil⟩

instance : Membership α (OrderedSet α) := ⟨fun s a => a ∈ s.elems⟩

theorem mem_def {s : OrderedSet α} {a : α} : a ∈ s ↔ a ∈ s.elems := Iff.rfl

/-- A set is its members. -/
protected theorem ext {s t : OrderedSet α} (h : ∀ a, a ∈ s ↔ a ∈ t) : s = t := by
  obtain ⟨l, hl⟩ := s
  obtain ⟨l', hl'⟩ := t
  have hperm : l.Perm l' :=
    (List.perm_ext_iff_of_nodup (hl.imp ne_of_lt) (hl'.imp ne_of_lt)).mpr h
  obtain rfl : l = l' :=
    hperm.eq_of_pairwise (fun a b _ _ hab hba => absurd hab (lt_asymm hba)) hl hl'
  rfl

@[simp] theorem not_mem_empty (a : α) : a ∉ (empty : OrderedSet α) := List.not_mem_nil

/-- The position is found from the front; an equal element is left in place. -/
def insertList (a : α) : List α → List α × Bool
  | [] => ([a], true)
  | b :: l =>
    if a < b then (a :: b :: l, true)
    else if b < a then (b :: (insertList a l).1, (insertList a l).2)
    else (b :: l, false)

theorem mem_insertList {a x : α} {l : List α} : x ∈ (insertList a l).1 ↔ x = a ∨ x ∈ l := by
  induction l with
  | nil => simp [insertList]
  | cons b l ih =>
    unfold insertList
    split_ifs with hab hba
    · simp
    · simp only [List.mem_cons, ih]
      tauto
    · have heq : a = b := le_antisymm (not_lt.mp hba) (not_lt.mp hab)
      simp [heq]

theorem insertList_sorted {a : α} {l : List α} (h : l.Pairwise (· < ·)) :
    (insertList a l).1.Pairwise (· < ·) := by
  induction l with
  | nil => simp [insertList]
  | cons b l ih =>
    obtain ⟨hb, hl⟩ := List.pairwise_cons.mp h
    unfold insertList
    split_ifs with hab hba
    · refine List.pairwise_cons.mpr ⟨?_, h⟩
      intro x hx
      rcases List.mem_cons.mp hx with rfl | hx
      · exact hab
      · exact lt_trans hab (hb x hx)
    · refine List.pairwise_cons.mpr ⟨?_, ih hl⟩
      intro x hx
      rcases mem_insertList.mp hx with rfl | hx
      · exact hba
      · exact hb x hx
    · exact h

theorem insertList_new {a : α} {l : List α} (h : l.Pairwise (· < ·)) :
    (insertList a l).2 = true ↔ a ∉ l := by
  induction l with
  | nil => simp [insertList]
  | cons b l ih =>
    obtain ⟨hb, hl⟩ := List.pairwise_cons.mp h
    unfold insertList
    split_ifs with hab hba
    · have hmem : a ∉ l := fun hx => lt_asymm hab (hb a hx)
      simp [hmem, ne_of_lt hab]
    · simp [ih hl, ne_of_gt hba]
    · have heq : a = b := le_antisymm (not_lt.mp hba) (not_lt.mp hab)
      simp [heq]

def insert (s : OrderedSet α) (a : α) : OrderedSet α × Bool :=
  (⟨(insertList a s.elems).1, insertList_sorted s.sorted⟩, (insertList a s.elems).2)

def erase (s : OrderedSet α) (a : α) : OrderedSet α :=
  ⟨s.elems.erase a, s.sorted.sublist List.erase_sublist⟩

def first? (s : OrderedSet α) : Option α := s.elems.head?

theorem nodup (s : OrderedSet α) : s.elems.Nodup := s.sorted.imp ne_of_lt

@[simp] theorem mem_insert {s : OrderedSet α} {a x : α} : x ∈ (s.insert a).1 ↔ x = a ∨ x ∈ s :=
  mem_insertList

theorem insert_new {s : OrderedSet α} {a : α} : (s.insert a).2 = true ↔ a ∉ s :=
  insertList_new s.sorted

@[simp] theorem mem_erase {s : OrderedSet α} {a x : α} : x ∈ s.erase a ↔ x ≠ a ∧ x ∈ s :=
  s.nodup.mem_erase_iff

theorem first?_eq_some {s : OrderedSet α} {a : α} :
    s.first? = some a ↔ a ∈ s ∧ ∀ b ∈ s, a ≤ b := by
  obtain ⟨l, hl⟩ := s
  cases l with
  | nil => simp [first?, mem_def]
  | cons b l =>
    have hb := (List.pairwise_cons.mp hl).1
    simp only [first?, mem_def, List.head?_cons, Option.some.injEq]
    constructor
    · rintro rfl
      refine ⟨List.mem_cons_self .., ?_⟩
      intro x hx
      rcases List.mem_cons.mp hx with rfl | hx
      · exact le_refl _
      · exact le_of_lt (hb x hx)
    · intro h
      rcases List.mem_cons.mp h.1 with heq | hmem
      · exact heq.symm
      · exact absurd (hb a hmem) (not_lt.mpr (h.2 b (List.mem_cons_self ..)))

end OrderedSet
