import Mathlib.Data.List.Basic
import Mathlib.Data.Nat.Notation
import Mathlib.Tactic.Common

/-!
# Maximal runs of a list

The maximal runs of elements of a list that are not a separator, with the positions they start at.
`IsRun` says what such a run is; `runs` computes all of them from the left, and `mem_runs` and
`pairwise_runs` say that it finds each of them once, in order. Between two runs stands a separator,
which bounds their number (`length_runs_le`).
-/

open List

namespace Runs

variable {α : Type*} {sep c : α} {l r u w : List α} {p k q : ℕ}

/-- `w` is a maximal run of elements of `l` other than `sep`, from position `p` on. -/
structure IsRun (sep : α) (l : List α) (p : ℕ) (w : List α) : Prop where
  nonempty : w ≠ []
  plain : sep ∉ w
  maximal : ∃ a b, l = a ++ w ++ b ∧ a.length = p ∧ (∀ x ∈ a.getLast?, x = sep) ∧
    ∀ x ∈ b.head?, x = sep

theorem IsRun.add_length_le (h : IsRun sep l p w) : p + w.length ≤ l.length := by
  obtain ⟨a, b, rfl, rfl, -⟩ := h.maximal
  simp only [length_append]
  omega

variable [DecidableEq α]

/-- What is left of a list after its first run of elements other than `sep` is shorter. -/
theorem length_dropWhile_lt (h : c ≠ sep) :
    ((c :: l).dropWhile (· ≠ sep)).length < l.length + 1 := by
  rw [dropWhile_cons_of_pos (by simpa using h), Nat.lt_succ_iff]
  exact (dropWhile_sublist _).length_le

/-- The maximal runs of elements other than `sep` of a list that stands at position `p`. -/
def runs (sep : α) (p : ℕ) : List α → List (ℕ × List α)
  | [] => []
  | c :: l =>
    if h : c = sep then runs sep (p + 1) l
    else (p, (c :: l).takeWhile (· ≠ sep)) ::
      runs sep (p + ((c :: l).takeWhile (· ≠ sep)).length) ((c :: l).dropWhile (· ≠ sep))
termination_by l => l.length
decreasing_by
  · exact Nat.lt_succ_self _
  · simpa using length_dropWhile_lt h

@[simp] theorem runs_nil : runs sep p [] = [] := by
  rw [runs]

@[simp] theorem runs_sep : runs sep p (sep :: l) = runs sep (p + 1) l := by
  rw [runs, dif_pos rfl]

omit [DecidableEq α] in
theorem head?_eq_sep (h : ∀ x ∈ r.head?, x = sep) : r = [] ∨ ∃ r', r = sep :: r' := by
  cases r with
  | nil => exact .inl rfl
  | cons x r' => exact .inr ⟨r', by rw [h x rfl]⟩

theorem takeWhile_append (hw : sep ∉ w) (hr : ∀ x ∈ r.head?, x = sep) :
    (w ++ r).takeWhile (· ≠ sep) = w := by
  rw [takeWhile_append_of_pos fun x hx => by simpa using ne_of_mem_of_not_mem hx hw]
  obtain rfl | ⟨r', rfl⟩ := head?_eq_sep hr <;> simp

theorem dropWhile_append (hw : sep ∉ w) (hr : ∀ x ∈ r.head?, x = sep) :
    (w ++ r).dropWhile (· ≠ sep) = r := by
  rw [dropWhile_append_of_pos fun x hx => by simpa using ne_of_mem_of_not_mem hx hw]
  obtain rfl | ⟨r', rfl⟩ := head?_eq_sep hr <;> simp

theorem runs_append (hne : w ≠ []) (hw : sep ∉ w) (hr : ∀ x ∈ r.head?, x = sep) :
    runs sep p (w ++ r) = (p, w) :: runs sep (p + w.length) r := by
  obtain ⟨c, w', rfl⟩ := exists_cons_of_ne_nil hne
  have hc : c ≠ sep := fun h => hw (h ▸ mem_cons_self)
  have htake := takeWhile_append hw hr
  have hdrop := dropWhile_append hw hr
  rw [cons_append] at htake hdrop ⊢
  rw [runs, dif_neg hc, htake, hdrop]

theorem runs_replicate_append :
    runs sep p (List.replicate k sep ++ l) = runs sep (p + k) l := by
  induction k generalizing p with
  | zero => rfl
  | succ k ih =>
    rw [replicate_succ, cons_append, runs_sep, ih, Nat.add_assoc, Nat.add_comm 1]

@[simp] theorem runs_replicate : runs sep p (List.replicate k sep) = [] := by
  rw [← append_nil (List.replicate k sep), runs_replicate_append, runs_nil]

/-- Induction on a list by its separators and its runs. -/
@[elab_as_elim]
theorem induction_on {motive : List α → Prop} (sep : α) (l : List α) (nil : motive [])
    (sep_cons : ∀ l, motive l → motive (sep :: l))
    (run : ∀ w r, w ≠ [] → sep ∉ w → (∀ x ∈ r.head?, x = sep) → motive r → motive (w ++ r)) :
    motive l := by
  induction hn : l.length using Nat.strongRecOn generalizing l with
  | _ n ih =>
    subst hn
    cases l with
    | nil => exact nil
    | cons c l =>
      by_cases hc : c = sep
      · rw [hc]
        exact sep_cons l (ih _ (Nat.lt_succ_self _) l rfl)
      · rw [← takeWhile_append_dropWhile (p := (· ≠ sep)) (l := c :: l)]
        refine run _ _ ?_ ?_ ?_ (ih _ (length_dropWhile_lt hc) _ rfl)
        · rw [takeWhile_cons_of_pos (by simpa using hc)]
          exact cons_ne_nil _ _
        · intro hmem
          simpa using all_eq_true.1 all_takeWhile sep hmem
        · intro x hx
          have hnot := head?_dropWhile_not (· ≠ sep) (c :: l)
          rw [Option.mem_def.1 hx] at hnot
          simpa using hnot

theorem split_first (sep : α) (l : List α) :
    (∃ k, l = List.replicate k sep) ∨
      ∃ k w r, l = List.replicate k sep ++ (w ++ r) ∧ w ≠ [] ∧ sep ∉ w ∧
        ∀ x ∈ r.head?, x = sep := by
  induction l using induction_on sep with
  | nil => exact .inl ⟨0, rfl⟩
  | sep_cons l ih =>
    rcases ih with ⟨k, rfl⟩ | ⟨k, w, r, rfl, h⟩
    · exact .inl ⟨k + 1, rfl⟩
    · exact .inr ⟨k + 1, w, r, rfl, h⟩
  | run w r hne hw hr _ => exact .inr ⟨0, w, r, rfl, hne, hw, hr⟩

/-! ## The runs are the maximal runs -/

omit [DecidableEq α] in
theorem not_isRun_nil : ¬ IsRun sep [] k w := by
  rintro ⟨hne, -, a, b, h, -⟩
  simp [hne] at h

omit [DecidableEq α] in
/-- The runs of a list with a separator before it. -/
theorem isRun_sep_cons : IsRun sep (sep :: l) k w ↔ ∃ i, k = i + 1 ∧ IsRun sep l i w := by
  constructor
  · rintro ⟨hne, hw, a, b, h, rfl, ha, hb⟩
    cases a with
    | nil =>
      obtain ⟨c, w', rfl⟩ := exists_cons_of_ne_nil hne
      exact absurd (List.cons.inj h).1 fun hc => hw (hc ▸ mem_cons_self)
    | cons x a =>
      refine ⟨a.length, rfl, hne, hw, a, b, (List.cons.inj h).2, rfl, ?_, hb⟩
      intro y hy
      refine ha y ?_
      cases a with
      | nil => exact absurd hy (by simp)
      | cons z a => rwa [getLast?_cons_cons]
  · rintro ⟨i, rfl, hne, hw, a, b, rfl, rfl, ha, hb⟩
    refine ⟨hne, hw, sep :: a, b, rfl, rfl, ?_, hb⟩
    intro y hy
    cases a with
    | nil => exact (Option.some.inj hy).symm
    | cons z a => exact ha y (by rwa [getLast?_cons_cons] at hy)

/-- The runs of a list that starts with a run. -/
theorem isRun_append (hne : u ≠ []) (hu : sep ∉ u) (hr : ∀ x ∈ r.head?, x = sep) :
    IsRun sep (u ++ r) k w ↔ k = 0 ∧ w = u ∨ ∃ i, k = u.length + i ∧ IsRun sep r i w := by
  constructor
  · rintro ⟨hne', hw, a, b, h, rfl, ha, hb⟩
    rcases eq_nil_or_concat a with rfl | ⟨a, x, rfl⟩
    · left
      refine ⟨rfl, ?_⟩
      rw [← takeWhile_append hw hb, ← takeWhile_append hu hr, h, nil_append]
    · right
      obtain rfl : x = sep := ha x (by simp)
      rw [append_assoc, append_eq_append_iff] at h
      rcases h with ⟨d, hd, hr'⟩ | ⟨d, hd, -⟩
      · refine ⟨d.length, by rw [hd, length_append], hne', hw, d, b, ?_, rfl, ?_, hb⟩
        · rw [hr', append_assoc]
        · intro y hy
          rcases eq_nil_or_concat d with rfl | ⟨d, z, rfl⟩
          · exact absurd hy (by simp)
          · rw [concat_eq_append, concat_eq_append, ← append_assoc] at hd
            have hz := (append_inj' hd rfl).2
            rw [concat_eq_append, getLast?_concat] at hy
            rw [← Option.some.inj hy]
            exact (List.cons.inj hz).1.symm
      · refine absurd ?_ hu
        rw [hd]
        simp
  · rintro (⟨rfl, rfl⟩ | ⟨i, rfl, hne', hw, a, b, rfl, rfl, ha, hb⟩)
    · exact ⟨hne, hu, [], r, rfl, rfl, by simp, hr⟩
    · refine ⟨hne', hw, u ++ a, b, by simp, by simp, ?_, hb⟩
      intro y hy
      cases a with
      | nil =>
        obtain ⟨c, w', rfl⟩ := exists_cons_of_ne_nil hne'
        exact absurd (hr c rfl) fun hc => hw (hc ▸ mem_cons_self)
      | cons z a =>
        rw [getLast?_append_of_ne_nil _ (cons_ne_nil z a)] at hy
        exact ha y hy

/-- `runs` finds the maximal runs. -/
theorem mem_runs : (q, w) ∈ runs sep p l ↔ ∃ k, q = p + k ∧ IsRun sep l k w := by
  induction l using induction_on sep generalizing p with
  | nil => simp [not_isRun_nil]
  | sep_cons l ih =>
    rw [runs_sep, ih]
    constructor
    · rintro ⟨k, rfl, hk⟩
      exact ⟨k + 1, by omega, isRun_sep_cons.2 ⟨k, rfl, hk⟩⟩
    · rintro ⟨_, rfl, hk⟩
      obtain ⟨k, rfl, hk'⟩ := isRun_sep_cons.1 hk
      exact ⟨k, by omega, hk'⟩
  | run u r hne hu hr ih =>
    rw [runs_append hne hu hr, mem_cons, ih, Prod.mk.injEq]
    constructor
    · rintro (⟨rfl, rfl⟩ | ⟨k, rfl, hk⟩)
      · exact ⟨0, rfl, (isRun_append hne hu hr).2 (.inl ⟨rfl, rfl⟩)⟩
      · exact ⟨u.length + k, by omega, (isRun_append hne hu hr).2 (.inr ⟨k, rfl, hk⟩)⟩
    · rintro ⟨_, rfl, hk⟩
      obtain ⟨rfl, rfl⟩ | ⟨k, rfl, hk'⟩ := (isRun_append hne hu hr).1 hk
      · exact .inl ⟨rfl, rfl⟩
      · exact .inr ⟨k, by omega, hk'⟩

theorem le_of_mem_runs (h : (q, w) ∈ runs sep p l) : p ≤ q := by
  obtain ⟨k, rfl, -⟩ := mem_runs.1 h
  exact Nat.le_add_right _ _

theorem runs_eq_nil : runs sep p l = [] ↔ ∀ x ∈ l, x = sep := by
  rcases split_first sep l with ⟨k, rfl⟩ | ⟨k, w, r, rfl, hne, hw, hr⟩
  · simp
  · rw [runs_replicate_append, runs_append hne hw hr]
    obtain ⟨c, w, rfl⟩ := exists_cons_of_ne_nil hne
    refine ⟨fun h => absurd h (cons_ne_nil _ _), fun h => absurd (h c (by simp)) ?_⟩
    exact fun hc => hw (hc ▸ mem_cons_self)

/-- `runs` finds them in order. -/
theorem pairwise_runs (sep : α) (p : ℕ) (l : List α) :
    (runs sep p l).Pairwise (·.1 < ·.1) := by
  induction l using induction_on sep generalizing p with
  | nil => simp
  | sep_cons l ih => simpa using ih (p + 1)
  | run u r hne hu hr ih =>
    rw [runs_append hne hu hr, pairwise_cons]
    refine ⟨fun x hx => ?_, ih _⟩
    have hle := le_of_mem_runs (q := x.1) (w := x.2) hx
    have hlen := length_pos_iff.2 hne
    exact Nat.lt_of_lt_of_le (by omega) hle

/-- Each run after the first has a separator before it that is not the first element. -/
theorem length_runs_le (sep : α) (p : ℕ) (l : List α) :
    (runs sep p l).length ≤ l.tail.count sep + 1 := by
  induction l using induction_on sep generalizing p with
  | nil => simp
  | sep_cons l ih =>
    rw [runs_sep, tail_cons]
    refine Nat.le_trans (ih (p + 1)) (Nat.succ_le_succ ?_)
    exact (tail_sublist l).count_le sep
  | run u r hne hu hr ih =>
    obtain ⟨c, u, rfl⟩ := exists_cons_of_ne_nil hne
    rw [runs_append hne hu hr, length_cons, cons_append, tail_cons,
      count_append]
    obtain rfl | ⟨r, rfl⟩ := head?_eq_sep hr
    · simp
    · have := ih (p + (c :: u).length)
      rw [tail_cons] at this
      rw [count_cons_self]
      omega

end Runs
