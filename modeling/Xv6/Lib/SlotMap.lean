import Mathlib.Data.Nat.Notation
import Mathlib.Order.Nat
import Mathlib.Tactic.Common

/-!
# Tables of slots as finite maps

A table is a row of `n` slots, each empty or holding a key with a value. `find` scans the
row for a key, `vacant` for an empty slot, and a table whose keys are distinct stands for
the finite map `lookup`. Filling an empty slot, or the one past the end, with an absent key
adds the key to the map (`Distinct.fill`), and emptying the slot of a key takes the key out
of it (`Distinct.empty`); every other key keeps its value.
-/

set_option linter.unusedSectionVars false

namespace SlotMap

variable {κ α : Type*} [DecidableEq κ] {t t' : ℕ → Option (κ × α)} {n e : ℕ} {k k' : κ} {a : α}

/-- Slot `e` holds key `k`. -/
def holds (t : ℕ → Option (κ × α)) (k : κ) (e : ℕ) : Bool :=
  (t e).any fun q => q.1 = k

/-- The first slot that holds `k`. -/
def find (t : ℕ → Option (κ × α)) (n : ℕ) (k : κ) : Option ℕ :=
  (List.range n).find? (holds t k)

/-- The value of `k`. -/
def lookup (t : ℕ → Option (κ × α)) (n : ℕ) (k : κ) : Option α :=
  (find t n k).bind fun e => (t e).map Prod.snd

/-- The first empty slot, or the one past the end. -/
def vacant (t : ℕ → Option (κ × α)) (n : ℕ) : ℕ :=
  ((List.range n).find? fun e => (t e).isNone).getD n

/-- No two slots hold one key. -/
def Distinct (t : ℕ → Option (κ × α)) (n : ℕ) : Prop :=
  ∀ e < n, ∀ e' < n, ∀ k a a', t e = some (k, a) → t e' = some (k, a') → e = e'

theorem holds_iff : holds t k e = true ↔ ∃ a, t e = some (k, a) := by
  unfold holds
  cases h : t e with
  | none => simp
  | some q => simp [Prod.ext_iff, eq_comm]

theorem find_eq_none_iff : find t n k = none ↔ ∀ e < n, ∀ a, t e ≠ some (k, a) := by
  simp only [find, List.find?_eq_none, List.mem_range, holds_iff, not_exists]

theorem find_eq_some (h : find t n k = some e) : e < n ∧ ∃ a, t e = some (k, a) :=
  ⟨List.mem_range.1 (List.mem_of_find?_eq_some h), holds_iff.1 (List.find?_some h)⟩

theorem Distinct.find_eq_some_iff (hd : Distinct t n) :
    find t n k = some e ↔ e < n ∧ ∃ a, t e = some (k, a) := by
  refine ⟨find_eq_some, ?_⟩
  rintro ⟨he, a, ha⟩
  cases hf : find t n k with
  | none => exact absurd ha (find_eq_none_iff.1 hf e he a)
  | some e' =>
    obtain ⟨he', a', ha'⟩ := find_eq_some hf
    rw [hd e he e' he' k a a' ha ha']

theorem lookup_eq_none_iff : lookup t n k = none ↔ ∀ e < n, ∀ a, t e ≠ some (k, a) := by
  rw [← find_eq_none_iff, lookup]
  cases hf : find t n k with
  | none => simp
  | some e =>
    obtain ⟨-, a, ha⟩ := find_eq_some hf
    simp [ha]

theorem Distinct.lookup_eq_some_iff (hd : Distinct t n) :
    lookup t n k = some a ↔ ∃ e < n, t e = some (k, a) := by
  simp only [lookup, Option.bind_eq_some_iff, hd.find_eq_some_iff, Option.map_eq_some_iff]
  constructor
  · rintro ⟨e, ⟨he, b, hb⟩, q, hq, rfl⟩
    obtain rfl := Option.some.inj (hb.symm.trans hq)
    exact ⟨e, he, hb⟩
  · rintro ⟨e, he, ha⟩
    exact ⟨e, ⟨he, a, ha⟩, _, ha, rfl⟩

theorem Distinct.lookup_congr {n' : ℕ} (hd : Distinct t n) (hd' : Distinct t' n')
    (h : ∀ a, (∃ e < n, t e = some (k, a)) ↔ ∃ e < n', t' e = some (k, a)) :
    lookup t' n' k = lookup t n k :=
  Option.ext fun a => by
    rw [hd.lookup_eq_some_iff, hd'.lookup_eq_some_iff, h]

theorem vacant_le (t : ℕ → Option (κ × α)) (n : ℕ) : vacant t n ≤ n := by
  unfold vacant
  cases h : (List.range n).find? fun e => (t e).isNone with
  | none => exact le_rfl
  | some e => exact (List.mem_range.1 (List.mem_of_find?_eq_some h)).le

theorem vacant_eq_none (h : vacant t n < n) : t (vacant t n) = none := by
  unfold vacant at h ⊢
  cases hf : (List.range n).find? fun e => (t e).isNone with
  | none => rw [hf] at h; exact absurd h (lt_irrefl n)
  | some e => simpa using List.find?_some hf

/-- Slot `e` of the table is set, and the table reaches that far. -/
structure Fills (t : ℕ → Option (κ × α)) (n e : ℕ) (x : Option (κ × α))
    (t' : ℕ → Option (κ × α)) (n' : ℕ) : Prop where
  le : e ≤ n
  self : t' e = x
  other : ∀ e' < n, e' ≠ e → t' e' = t e'
  size : n' = max n (e + 1)

namespace Fills

variable {x : Option (κ × α)} {n' : ℕ} {q : κ × α}

theorem exists_iff (h : Fills t n e x t' n') :
    (∃ e' < n', t' e' = some q) ↔ x = some q ∨ ∃ e' < n, e' ≠ e ∧ t e' = some q := by
  have hle := h.le
  have hsize := h.size
  constructor
  · rintro ⟨e', he', hq⟩
    by_cases hee : e' = e
    · subst hee
      exact .inl (h.self.symm.trans hq)
    · exact .inr ⟨e', by omega, hee, (h.other e' (by omega) hee).symm.trans hq⟩
  · rintro (rfl | ⟨e', he', hee, hq⟩)
    · exact ⟨e, by omega, h.self⟩
    · exact ⟨e', by omega, (h.other e' he' hee).trans hq⟩

theorem distinct (h : Fills t n e x t' n') (hd : Distinct t n)
    (hx : ∀ k a, x = some (k, a) → ∀ e' < n, e' ≠ e → ∀ b, t e' ≠ some (k, b)) :
    Distinct t' n' := by
  have hle := h.le
  have hsize := h.size
  intro e1 h1 e2 h2 k a b ha hb
  by_cases he1 : e1 = e <;> by_cases he2 : e2 = e
  · rw [he1, he2]
  · subst he1
    rw [h.self] at ha
    rw [h.other e2 (by omega) he2] at hb
    exact absurd hb (hx k a ha e2 (by omega) he2 b)
  · subst he2
    rw [h.self] at hb
    rw [h.other e1 (by omega) he1] at ha
    exact absurd ha (hx k b hb e1 (by omega) he1 a)
  · rw [h.other e1 (by omega) he1] at ha
    rw [h.other e2 (by omega) he2] at hb
    exact hd e1 (by omega) e2 (by omega) k a b ha hb

end Fills

variable {n' : ℕ}

/-- An absent key goes into an empty slot. -/
theorem Distinct.fill (hd : Distinct t n) (h : Fills t n e (some (k, a)) t' n')
    (hempty : e < n → t e = none) (habsent : find t n k = none) :
    Distinct t' n' ∧ ∀ k', lookup t' n' k' = if k' = k then some a else lookup t n k' := by
  have hno := find_eq_none_iff.1 habsent
  have hd' : Distinct t' n' := h.distinct hd fun k1 a1 hx e' he' _ b hb => by
    cases hx
    exact hno e' he' b hb
  refine ⟨hd', fun k' => ?_⟩
  split_ifs with hk
  · subst hk
    exact hd'.lookup_eq_some_iff.2 ⟨e, by rw [h.size]; omega, h.self⟩
  · refine hd.lookup_congr hd' fun b => ?_
    rw [h.exists_iff]
    constructor
    · rintro ⟨e', he', hb⟩
      refine .inr ⟨e', he', ?_, hb⟩
      rintro rfl
      rw [hempty he'] at hb
      cases hb
    · rintro (hq | ⟨e', he', -, hb⟩)
      · cases hq
        exact absurd rfl hk
      · exact ⟨e', he', hb⟩

/-- The slot of a key is emptied. -/
theorem Distinct.empty (hd : Distinct t n) (h : Fills t n e none t' n')
    (hfind : find t n k = some e) :
    Distinct t' n' ∧ ∀ k', lookup t' n' k' = if k' = k then none else lookup t n k' := by
  obtain ⟨he, a, ha⟩ := find_eq_some hfind
  have hd' : Distinct t' n' := h.distinct hd fun k1 a1 hx => by cases hx
  refine ⟨hd', fun k' => ?_⟩
  split_ifs with hk
  · subst hk
    by_contra hsome
    obtain ⟨b, hb⟩ := Option.ne_none_iff_exists'.1 hsome
    obtain hx | ⟨e', he', hee, hq⟩ := h.exists_iff.1 (hd'.lookup_eq_some_iff.1 hb)
    · cases hx
    · exact hee (hd e' he' e he k' b a hq ha)
  · refine hd.lookup_congr hd' fun b => ?_
    rw [h.exists_iff]
    constructor
    · rintro ⟨e', he', hb⟩
      refine .inr ⟨e', he', ?_, hb⟩
      rintro rfl
      obtain ⟨rfl, -⟩ := Prod.mk.inj (Option.some.inj (hb.symm.trans ha))
      exact hk rfl
    · rintro (hx | ⟨e', he', -, hb⟩)
      · cases hx
      · exact ⟨e', he', hb⟩

end SlotMap
