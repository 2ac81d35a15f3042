import Mathlib.Data.Nat.Notation
import Mathlib.Tactic.Common

/-!
# Weakest preconditions of programs with state and stops

A program of type `EStateM ε σ α` runs on a state and either returns a value or stops,
leaving a state in both cases. `wp m Q E s` says that `m` run from `s` returns into `Q`
or stops into `E`. With `E` everywhere false this is total correctness, with `E`
everywhere true partial correctness.

The rewrite rules compute the precondition of the primitives and of sequencing. A
program that has a specification is used through it, by `wp_mono` or `wp_seq`.
-/

open List

namespace Prog

variable {ε σ α β : Type}

/-- `m` run from `s` returns into `Q` or stops into `E`. -/
def wp (m : EStateM ε σ α) (Q : α → σ → Prop) (E : ε → σ → Prop) (s : σ) : Prop :=
  match m s with
  | .ok a s' => Q a s'
  | .error e s' => E e s'

variable {m : EStateM ε σ α} {f : α → EStateM ε σ β} {Q Q' : α → σ → Prop}
  {R : β → σ → Prop} {E E' : ε → σ → Prop} {s : σ}

@[simp] theorem wp_pure (a : α) : wp (pure a) Q E s ↔ Q a s :=
  Iff.rfl

@[simp] theorem wp_bind : wp (m >>= f) R E s ↔ wp m (fun a => wp (f a) R E) E s := by
  simp only [wp, bind, EStateM.bind]
  cases m s <;> rfl

theorem wp_bind_eq : wp (m >>= f) R E = wp m (fun a => wp (f a) R E) E :=
  funext fun _ => propext wp_bind

@[simp] theorem wp_map (g : α → β) : wp (g <$> m) R E s ↔ wp m (fun a => R (g a)) E s := by
  simp only [wp, Functor.map, EStateM.map]
  cases m s <;> rfl

@[simp] theorem wp_get {Q : σ → σ → Prop} : wp (get : EStateM ε σ σ) Q E s ↔ Q s s :=
  Iff.rfl

@[simp] theorem wp_set {Q : PUnit → σ → Prop} (s' : σ) :
    wp (set s' : EStateM ε σ PUnit) Q E s ↔ Q ⟨⟩ s' :=
  Iff.rfl

@[simp] theorem wp_modify {Q : PUnit → σ → Prop} (g : σ → σ) :
    wp (modify g : EStateM ε σ PUnit) Q E s ↔ Q ⟨⟩ (g s) :=
  Iff.rfl

@[simp] theorem wp_throw (e : ε) : wp (throw e) Q E s ↔ E e s :=
  Iff.rfl

theorem wp_ite {c : Prop} [Decidable c] {m' : EStateM ε σ α} :
    wp (if c then m else m') Q E s ↔ (c → wp m Q E s) ∧ (¬c → wp m' Q E s) := by
  split_ifs with h <;> simp [h]

theorem wp_mono' (h : wp m Q E s) (hQ : ∀ a s', Q a s' → Q' a s')
    (hE : ∀ e s', E e s' → E' e s') : wp m Q' E' s := by
  unfold wp at h ⊢
  cases hm : m s with
  | ok a s' => rw [hm] at h; exact hQ a s' h
  | error e s' => rw [hm] at h; exact hE e s' h

theorem wp_mono (h : wp m Q E s) (hQ : ∀ a s', Q a s' → Q' a s') : wp m Q' E s :=
  wp_mono' h hQ fun _ _ => id

/-- The rule for a sequence. -/
theorem wp_seq (h : wp m Q E s) (hf : ∀ a s', Q a s' → wp (f a) R E s') :
    wp (m >>= f) R E s :=
  wp_bind.2 (wp_mono h hf)

theorem wp_seq_partial (h : wp m Q E s) (hf : ∀ a s', Q a s' → wp (f a) R (fun _ _ => True) s') :
    wp (m >>= f) R (fun _ _ => True) s :=
  wp_seq (wp_mono' h (fun _ _ => id) fun _ _ _ => trivial) hf

theorem wp_seq_total (h : wp m Q (fun _ _ => False) s) (hf : ∀ a s', Q a s' → wp (f a) R E s') :
    wp (m >>= f) R E s :=
  wp_seq (wp_mono' h (fun _ _ => id) fun _ _ => False.elim) hf

theorem wp_and (h : wp m Q E s) (h' : wp m Q' E s) : wp m (fun a s' => Q a s' ∧ Q' a s') E s := by
  unfold wp at h h' ⊢
  cases hm : m s with
  | ok a s' => rw [hm] at h h'; exact ⟨h, h'⟩
  | error e s' => rw [hm] at h; exact h

theorem wp_and_total (h : wp m Q (fun _ _ => False) s) (h' : wp m Q' E' s) :
    wp m (fun a s' => Q a s' ∧ Q' a s') E s := by
  unfold wp at h h' ⊢
  cases hm : m s with
  | ok a s' => rw [hm] at h h'; exact ⟨h, h'⟩
  | error e s' => rw [hm] at h; exact h.elim

theorem wp_ok (h : wp m Q E s) {a : α} {s' : σ} (hm : m s = .ok a s') : Q a s' := by
  simpa [wp, hm] using h

theorem wp_iff_of_ok {a : α} {s' : σ} (hm : m s = .ok a s') : wp m Q E s ↔ Q a s' := by
  simp only [wp, hm]

theorem wp_error (h : wp m Q E s) {e : ε} {s' : σ} (hm : m s = .error e s') : E e s' := by
  simpa [wp, hm] using h

/-- A program that cannot fail returns. -/
theorem exists_ok_of_wp (h : wp m Q (fun _ _ => False) s) : ∃ a s', m s = .ok a s' ∧ Q a s' := by
  unfold wp at h
  cases hm : m s with
  | ok a s' => rw [hm] at h; exact ⟨a, s', rfl, h⟩
  | error e s' => rw [hm] at h; exact h.elim

/-! ## What a program does however it ends -/

/-- Every run of `m`, returning or stopping, takes the state to one that `R` relates to it. -/
structure Always (R : σ → σ → Prop) (m : EStateM ε σ α) : Prop where
  run : ∀ s, wp m (fun _ s' => R s s') (fun _ s' => R s s') s

section

variable {S : σ → σ → Prop} {P : Prop} [Decidable P]

theorem always_pure (hrefl : ∀ s, S s s) (a : α) : Always S (pure a : EStateM ε σ α) :=
  ⟨hrefl⟩

theorem always_throw (hrefl : ∀ s, S s s) (e : ε) : Always S (throw e : EStateM ε σ α) :=
  ⟨hrefl⟩

theorem always_get (hrefl : ∀ s, S s s) : Always S (get : EStateM ε σ σ) :=
  ⟨hrefl⟩

theorem always_modify {g : σ → σ} (h : ∀ s, S s (g s)) :
    Always S (modify g : EStateM ε σ PUnit) :=
  ⟨h⟩

theorem always_bind (htrans : ∀ s s' s'', S s s' → S s' s'' → S s s'') (hm : Always S m)
    (hf : ∀ a, Always S (f a)) : Always S (m >>= f) where
  run s := wp_bind.2 (wp_mono' (hm.run s) (fun a s' h => wp_mono' ((hf a).run s')
    (fun _ s'' => htrans s s' s'' h) fun _ s'' => htrans s s' s'' h) fun _ _ => id)

theorem always_ite {m' : EStateM ε σ α} (hm : Always S m) (hm' : Always S m') :
    Always S (if P then m else m') := by
  split_ifs
  · exact hm
  · exact hm'

/-- A relation of the states before and after is enough. -/
theorem wp_of_always (hm : Always S m) (hQ : ∀ a s', S s s' → Q a s')
    (hE : ∀ e s', S s s' → E e s') : wp m Q E s :=
  wp_mono' (hm.run s) hQ hE

theorem wp_and_always (h : wp m Q E s) (hm : Always S m) :
    wp m (fun a s' => Q a s' ∧ S s s') (fun e s' => E e s' ∧ S s s') s := by
  have hs := hm.run s
  unfold wp at h hs ⊢
  cases hr : m s with
  | ok a s' => rw [hr] at h hs; exact ⟨h, hs⟩
  | error e s' => rw [hr] at h hs; exact ⟨h, hs⟩

theorem wp_always (h : wp m Q E s) (hm : Always S m) :
    wp m (fun a s' => Q a s' ∧ S s s') E s :=
  wp_mono' (wp_and_always h hm) (fun _ _ => id) fun _ _ he => he.1

end

theorem forM_cons_ok {ι : Type} {g : ι → EStateM ε σ PUnit} {i : ι} {l : List ι} {s' : σ}
    (h : g i s = .ok ⟨⟩ s') : forM (i :: l) g s = forM l g s' := by
  simp only [forM_cons, bind, EStateM.bind, h]

theorem forM_cons_error {ι : Type} {g : ι → EStateM ε σ PUnit} {i : ι} {l : List ι} {x : ε} {s' : σ}
    (h : g i s = .error x s') : forM (i :: l) g s = .error x s' := by
  simp only [forM_cons, bind, EStateM.bind, h]

/-- The rule for a loop over a list. -/
theorem wp_forM {ι : Type} (g : ι → EStateM ε σ PUnit) (I : List ι → σ → Prop) :
    ∀ (l : List ι) {s : σ}, I l s →
      (∀ i l' s', I (i :: l') s' → wp (g i) (fun _ => I l') E s') →
      wp (forM l g) (fun _ => I []) E s
  | [], _, h, _ => h
  | i :: l, _, h, hstep => by
    rw [forM_cons]
    exact wp_seq (hstep i l _ h) fun _ s' h' => wp_forM g I l h' hstep

/-- The rule for a counting loop. -/
theorem wp_forM_range (g : ℕ → EStateM ε σ PUnit) (n : ℕ) (I : ℕ → σ → Prop) {s : σ} (h : I 0 s)
    (hstep : ∀ i < n, ∀ s', I i s' → wp (g i) (fun _ => I (i + 1)) E s') :
    wp (forM (List.range n) g) (fun _ => I n) E s := by
  rw [range_eq_range']
  suffices hgen : ∀ m i s, i + m = n → I i s → wp (forM (List.range' i m) g) (fun _ => I n) E s from
    hgen n 0 s (Nat.zero_add n) h
  intro m
  induction m with
  | zero =>
    rintro i s rfl hi
    exact hi
  | succ m ih =>
    intro i s him hi
    rw [range'_succ, forM_cons]
    exact wp_seq (hstep i (by omega) s hi) fun _ s' h' => ih (i + 1) s' (by omega) h'

/-- A loop over the entries of a list with their indices, with an invariant indexed by the
number of entries done. -/
theorem wp_forM_zipIdx {ι : Type} (g : ι × ℕ → EStateM ε σ PUnit) (l : List ι)
    (I : ℕ → σ → Prop) {s : σ} (h : I 0 s)
    (hstep : ∀ i (hi : i < l.length) s', I i s' → wp (g (l[i], i)) (fun _ => I (i + 1)) E s') :
    wp (forM l.zipIdx g) (fun _ => I l.length) E s := by
  refine wp_mono (wp_forM g (fun rem s' => ∃ i, rem = l.zipIdx.drop i ∧ i ≤ l.length ∧ I i s') _
    ⟨0, rfl, Nat.zero_le _, h⟩ ?_) ?_
  · rintro ⟨c, k⟩ rem s' ⟨i, hrem, -, hs⟩
    have hi : i < l.zipIdx.length := by
      by_contra hn
      rw [drop_eq_nil_of_le (Nat.not_lt.1 hn)] at hrem
      exact cons_ne_nil _ _ hrem
    rw [drop_eq_getElem_cons hi, getElem_zipIdx, Nat.zero_add] at hrem
    obtain ⟨hhd, rfl⟩ := List.cons.inj hrem
    obtain ⟨rfl, rfl⟩ := Prod.mk.inj hhd
    rw [length_zipIdx] at hi
    exact wp_mono (hstep k hi s' hs) fun _ s'' h' => ⟨k + 1, rfl, hi, h'⟩
  · rintro _ s' ⟨i, hrem, hi, hs⟩
    have hle : l.length ≤ i := by simpa using drop_eq_nil_iff.1 hrem.symm
    rwa [Nat.le_antisymm hi hle] at hs

end Prog
