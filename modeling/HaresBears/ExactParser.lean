import Mathlib.Data.List.Basic

/-!
Parsers that are exact for a code. A parser reads from a state of its own, may
reject, and may fault where a read leaves the buffer. A code relates values to the
items that stand for them; a parser is exact for it if it never faults and accepts
a value exactly when the unread items begin with a code of it. Exact parsers
compose, and their codes are free of prefixes.
-/
namespace ExactParser

universe u v

variable {ρ ε α γ : Type u} {β : Type v}

/-- A parser over states `ρ`: a fault, a rejection, or a value and the next state. -/
abbrev Parser (ρ ε α : Type u) := StateT ρ (OptionT (Except ε)) α

def result (p : Parser ρ ε α) (r : ρ) : Except ε (Option (α × ρ)) := p r

def reject : Parser ρ ε α := fun _ => (.ok none : Except ε (Option (α × ρ)))

theorem result_pure (a : α) (r : ρ) : result (pure a : Parser ρ ε α) r = .ok (some (a, r)) := rfl

theorem result_reject (r : ρ) : result (reject : Parser ρ ε α) r = .ok none := rfl

theorem result_bind (p : Parser ρ ε α) (f : α → Parser ρ ε γ) (r : ρ) :
    result (p >>= f) r = (result p r).bind
      (fun o => o.elim (.ok none) (fun x => result (f x.1) x.2)) := by
  change (OptionT.bind (p r) (fun x => f x.1 x.2) : Except ε _) = _
  unfold OptionT.bind OptionT.mk
  change Except.bind (p r) _ = Except.bind (p r) _
  congr 1
  funext o
  cases o <;> rfl

/-- The parser accepts exactly the codes; `rest` is what a state has not read. -/
structure Exact (rest : ρ → List β) (p : Parser ρ ε α) (code : α → List β → Prop) : Prop where
  total : ∀ r, ∃ o, result p r = .ok o
  sound : ∀ r a r', result p r = .ok (some (a, r')) → ∃ bs, code a bs ∧ rest r = bs ++ rest r'
  complete : ∀ r a bs tail, code a bs → rest r = bs ++ tail →
    ∃ r', result p r = .ok (some (a, r')) ∧ rest r' = tail

namespace Exact

variable {rest : ρ → List β} {p : Parser ρ ε α} {code : α → List β → Prop}

theorem congr (h : Exact rest p code) {code' : α → List β → Prop}
    (heq : ∀ a bs, code a bs ↔ code' a bs) : Exact rest p code' where
  total := h.total
  sound r a r' hr := by
    obtain ⟨bs, hc, hrest⟩ := h.sound r a r' hr
    exact ⟨bs, (heq a bs).mp hc, hrest⟩
  complete r a bs tail hc hrest := h.complete r a bs tail ((heq a bs).mpr hc) hrest

protected theorem pure (a : α) :
    Exact rest (pure a : Parser ρ ε α) (fun b bs => b = a ∧ bs = []) where
  total r := ⟨_, result_pure a r⟩
  sound r b r' hr := by
    obtain ⟨rfl, rfl⟩ := Prod.mk.inj (Option.some.inj (Except.ok.inj hr))
    exact ⟨[], ⟨rfl, rfl⟩, rfl⟩
  complete r b bs tail hc hrest := by
    obtain ⟨rfl, rfl⟩ := hc
    exact ⟨r, result_pure b r, hrest⟩

protected theorem reject : Exact rest (reject : Parser ρ ε α) (fun _ _ => False) where
  total r := ⟨_, result_reject r⟩
  sound _ _ _ hr := nomatch Except.ok.inj hr
  complete _ _ _ _ hc _ := hc.elim

/-- A parser that takes a fixed number of items, if they are there, and decodes
them. -/
theorem of_fixed (n : ℕ) (decode : List β → α) (encode : α → List β)
    (hlen : ∀ a, (encode a).length = n) (hdec : ∀ a, decode (encode a) = a)
    (henc : ∀ bs, bs.length = n → encode (decode bs) = bs)
    (hshort : ∀ r, (rest r).length < n → result p r = .ok none)
    (hlong : ∀ r bs tail, bs.length = n → rest r = bs ++ tail →
      ∃ r', result p r = .ok (some (decode bs, r')) ∧ rest r' = tail) :
    Exact rest p (fun a bs => bs = encode a) := by
  have hread : ∀ r, n ≤ (rest r).length → ∃ bs r', bs.length = n ∧
      result p r = .ok (some (decode bs, r')) ∧ rest r = bs ++ rest r' := by
    intro r hn
    have htake : ((rest r).take n).length = n := List.length_take_of_le hn
    obtain ⟨r', hr, hrest⟩ := hlong r _ ((rest r).drop n) htake (List.take_append_drop ..).symm
    exact ⟨_, r', htake, hr, by rw [hrest, List.take_append_drop]⟩
  constructor
  · intro r
    by_cases hn : (rest r).length < n
    · exact ⟨_, hshort r hn⟩
    · obtain ⟨bs, r', -, hr, -⟩ := hread r (Nat.le_of_not_lt hn)
      exact ⟨_, hr⟩
  · intro r a r' hr
    by_cases hn : (rest r).length < n
    · rw [hshort r hn] at hr
      cases hr
    · obtain ⟨bs, r₁, hbs, hr₁, hrest⟩ := hread r (Nat.le_of_not_lt hn)
      rw [hr₁] at hr
      obtain ⟨rfl, rfl⟩ := Prod.mk.inj (Option.some.inj (Except.ok.inj hr))
      exact ⟨bs, (henc bs hbs).symm, hrest⟩
  · intro r a bs tail hc hrest
    subst hc
    have hr := hlong r _ tail (hlen a) hrest
    rwa [hdec] at hr

/-- What follows is read from where the first parser has stopped. -/
protected theorem bind (h : Exact rest p code) {f : α → Parser ρ ε γ}
    {next : α → γ → List β → Prop} (hf : ∀ a, Exact rest (f a) (next a)) :
    Exact rest (p >>= f)
      (fun c bs => ∃ a bs₁ bs₂, code a bs₁ ∧ next a c bs₂ ∧ bs = bs₁ ++ bs₂) where
  total r := by
    rw [result_bind]
    obtain ⟨o, ho⟩ := h.total r
    rw [ho]
    cases o with
    | none => exact ⟨none, rfl⟩
    | some x => exact (hf x.1).total x.2
  sound r c r' hr := by
    rw [result_bind] at hr
    obtain ⟨o, ho⟩ := h.total r
    rw [ho] at hr
    cases o with
    | none => cases hr
    | some x =>
      obtain ⟨bs₁, hc₁, hrest₁⟩ := h.sound r x.1 x.2 ho
      obtain ⟨bs₂, hc₂, hrest₂⟩ := (hf x.1).sound x.2 c r' hr
      exact ⟨bs₁ ++ bs₂, ⟨x.1, bs₁, bs₂, hc₁, hc₂, rfl⟩, by
        rw [hrest₁, hrest₂, List.append_assoc]⟩
  complete r c bs tail hc hrest := by
    obtain ⟨a, bs₁, bs₂, hc₁, hc₂, rfl⟩ := hc
    rw [List.append_assoc] at hrest
    obtain ⟨r₁, hr₁, hrest₁⟩ := h.complete r a bs₁ _ hc₁ hrest
    obtain ⟨r₂, hr₂, hrest₂⟩ := (hf a).complete r₁ c bs₂ tail hc₂ hrest₁
    refine ⟨r₂, ?_, hrest₂⟩
    rw [result_bind, hr₁]
    exact hr₂

/-- A test between two parsers is a test between their codes. -/
protected theorem ite {q : Parser ρ ε α} {code' : α → List β → Prop} (t : Prop) [Decidable t]
    (h : Exact rest p code) (h' : Exact rest q code') :
    Exact rest (if t then p else q) (fun a bs => if t then code a bs else code' a bs) := by
  by_cases ht : t
  · simpa only [if_pos ht] using h
  · simpa only [if_neg ht] using h'

theorem accepts_iff (h : Exact rest p code) (r : ρ) (a : α) :
    (∃ r', result p r = .ok (some (a, r'))) ↔ ∃ bs, code a bs ∧ bs <+: rest r := by
  constructor
  · rintro ⟨r', hr⟩
    obtain ⟨bs, hc, hrest⟩ := h.sound r a r' hr
    exact ⟨bs, hc, rest r', hrest.symm⟩
  · rintro ⟨bs, hc, tail, hrest⟩
    obtain ⟨r', hr, -⟩ := h.complete r a bs tail hc hrest.symm
    exact ⟨r', hr⟩

theorem rejects_iff (h : Exact rest p code) (r : ρ) :
    result p r = .ok none ↔ ∀ a bs, code a bs → ¬ bs <+: rest r := by
  constructor
  · intro hr a bs hc hpre
    obtain ⟨r', hr'⟩ := (h.accepts_iff r a).mpr ⟨bs, hc, hpre⟩
    rw [hr] at hr'
    cases hr'
  · intro hno
    obtain ⟨o, ho⟩ := h.total r
    cases o with
    | none => exact ho
    | some x =>
      obtain ⟨bs, hc, hpre⟩ := (h.accepts_iff r x.1).mp ⟨x.2, ho⟩
      exact absurd hpre (hno x.1 bs hc)

/-- Two codes that begin the same items stand for the same value. -/
theorem prefix_free (h : Exact rest p code) (r : ρ) {a a' : α} {bs bs' : List β}
    (hc : code a bs) (hc' : code a' bs') (hpre : bs <+: rest r) (hpre' : bs' <+: rest r) :
    a = a' := by
  obtain ⟨r₁, hr₁⟩ := (h.accepts_iff r a).mpr ⟨bs, hc, hpre⟩
  obtain ⟨r₂, hr₂⟩ := (h.accepts_iff r a').mpr ⟨bs', hc', hpre'⟩
  rw [hr₁] at hr₂
  exact (Prod.mk.inj (Option.some.inj (Except.ok.inj hr₂))).1

end Exact

end ExactParser
