import Mathlib.Algebra.BigOperators.Group.Finset.Piecewise
import Mathlib.Tactic.Common

/-!
# Transition systems

A system steps from a state by a label, where the label is enabled. `run` takes a list of
labels, `Along C` says that every step of a run meets the condition `C` on its label and
on the state before it. `run_invariant` is the induction over runs : what the start
satisfies and every step that meets the condition keeps, holds of every state reached.

In a system of several threads the state of the threads is a function. Counting threads,
or adding up what they hold, changes by the one thread a step changes
(`sum_update_add`).
-/

open Function

namespace Transition

variable {σ ι : Type*} (step : σ → ι → Option σ)

/-- Take the steps of a list of labels. -/
def run : σ → List ι → Option σ
  | s, [] => some s
  | s, i :: is => (step s i).bind fun s' => run s' is

/-- Every step of the run meets `C`. -/
def Along (C : σ → ι → Prop) : σ → List ι → Prop
  | _, [] => True
  | s, i :: is => C s i ∧ ∀ s', step s i = some s' → Along C s' is

/-- Whether every step of a run meets a decidable condition is decidable. -/
def decidableAlong {C : σ → ι → Prop} [∀ s i, Decidable (C s i)] :
    ∀ (s : σ) (is : List ι), Decidable (Along step C s is)
  | _, [] => .isTrue trivial
  | s, i :: is =>
    match hs : step s i with
    | none => decidable_of_iff (C s i) (by simp [Along, hs])
    | some s' =>
      have : Decidable (Along step C s' is) := decidableAlong s' is
      decidable_of_iff (C s i ∧ Along step C s' is) (by simp [Along, hs])

instance {C : σ → ι → Prop} [∀ s i, Decidable (C s i)] (s : σ) (is : List ι) :
    Decidable (Along step C s is) :=
  decidableAlong step s is

variable {step} {C : σ → ι → Prop}

theorem run_cons {s s' : σ} {i : ι} {is : List ι} (h : run step s (i :: is) = some s') :
    ∃ s1, step s i = some s1 ∧ run step s1 is = some s' :=
  Option.bind_eq_some_iff.1 h

theorem enabled {c : Prop} [Decidable c] {t s' : σ} (h : (if c then some t else none) = some s') :
    c ∧ t = s' := by
  simpa using h

theorem run_append : ∀ (s : σ) (is js : List ι),
    run step s (is ++ js) = (run step s is).bind fun s' => run step s' js
  | s, [], js => rfl
  | s, i :: is, js => by
    simp only [List.cons_append, run]
    cases step s i with
    | none => rfl
    | some s1 => exact run_append s1 is js

theorem along_cons {s s1 : σ} {i : ι} {is : List ι} (hs : step s i = some s1) (hC : C s i)
    (h : Along step C s1 is) : Along step C s (i :: is) :=
  ⟨hC, fun s' hs' => by
    rw [hs] at hs'
    cases hs'
    exact h⟩

theorem along_append : ∀ {is js : List ι} {s s1 : σ}, run step s is = some s1 →
    (Along step C s (is ++ js) ↔ Along step C s is ∧ Along step C s1 js)
  | [], _, _, _, hr => by
    cases hr
    exact (and_iff_right trivial).symm
  | i :: is, js, s, s1, hr => by
    obtain ⟨s2, h2, hr2⟩ := run_cons hr
    have ih : Along step C s2 (is ++ js) ↔ Along step C s2 is ∧ Along step C s1 js :=
      along_append hr2
    simp only [List.cons_append, Along, h2, Option.some.injEq, forall_eq', ih, and_assoc]

/-- What each step keeps holds along a run. -/
theorem run_invariant {I : σ → Prop}
    (hstep : ∀ s i s', I s → C s i → step s i = some s' → I s') :
    ∀ {is : List ι} {s s' : σ}, I s → Along step C s is → run step s is = some s' → I s'
  | [], _, _, h, _, hr => by cases hr; exact h
  | i :: is, s, s', h, hC, hr => by
    obtain ⟨s1, h1, hr1⟩ := run_cons hr
    exact run_invariant hstep (hstep s i s1 h hC.1 h1) (hC.2 s1 h1) hr1

/-- So does what mentions the labels so far. -/
theorem run_history {I : List ι → σ → Prop}
    (hstep : ∀ is s i s', I is s → C s i → step s i = some s' → I (is ++ [i]) s') :
    ∀ {is js : List ι} {s s' : σ}, I js s → Along step C s is → run step s is = some s' →
      I (js ++ is) s'
  | [], js, _, _, h, _, hr => by
    cases hr
    rwa [List.append_nil]
  | i :: is, js, s, s', h, hC, hr => by
    obtain ⟨s1, h1, hr1⟩ := run_cons hr
    rw [List.append_cons]
    exact run_history hstep (hstep js s i s1 h hC.1 h1) (hC.2 s1 h1) hr1

/-- Every step from a state with the invariant meets `D`. -/
theorem along_of_invariant {I : σ → Prop} {D : σ → ι → Prop}
    (hstep : ∀ s i s', I s → C s i → step s i = some s' → I s')
    (hD : ∀ s i, I s → C s i → D s i) :
    ∀ {is : List ι} {s : σ}, I s → Along step C s is → Along step D s is
  | [], _, _, _ => trivial
  | i :: _, s, h, hC => ⟨hD s i h hC.1, fun s' hs =>
      along_of_invariant hstep hD (hstep s i s' h hC.1 hs) (hC.2 s' hs)⟩

theorem along_true : ∀ (s : σ) (is : List ι), Along step (fun _ _ => True) s is
  | _, [] => trivial
  | _, _ :: is => ⟨trivial, fun s' _ => along_true s' is⟩

theorem Along.mono {D : σ → ι → Prop} (hCD : ∀ s i, C s i → D s i) :
    ∀ {is : List ι} {s : σ}, Along step C s is → Along step D s is
  | [], _, _ => trivial
  | _ :: _, _, h => ⟨hCD _ _ h.1, fun s' hs => (h.2 s' hs).mono hCD⟩

theorem Along.and {D : σ → ι → Prop} : ∀ {is : List ι} {s : σ}, Along step C s is →
    Along step D s is → Along step (fun s i => C s i ∧ D s i) s is
  | [], _, _, _ => trivial
  | _ :: _, _, h, h' => ⟨⟨h.1, h'.1⟩, fun s' hs => (h.2 s' hs).and (h'.2 s' hs)⟩

theorem along_of_forall {D : ι → Prop} : ∀ {is : List ι} {s : σ}, (∀ i ∈ is, D i) →
    Along step (fun _ i => D i) s is
  | [], _, _ => trivial
  | i :: _, _, h => ⟨h i List.mem_cons_self, fun _ _ =>
      along_of_forall fun j hj => h j (List.mem_cons_of_mem i hj)⟩

theorem update_cases {P τ : Type*} [DecidableEq P] (thr : P → τ) (p : P) (t : τ) (q : P) :
    q ≠ p ∧ update thr p t q = thr q ∨ q = p ∧ update thr p t q = t := by
  by_cases hq : q = p
  · subst hq
    exact .inr ⟨rfl, update_self ..⟩
  · exact .inl ⟨hq, update_of_ne hq ..⟩

theorem sum_update_add {P τ A : Type*} [Fintype P] [DecidableEq P] [AddCommMonoid A] (w : τ → A)
    (thr : P → τ) (p : P) (t : τ) :
    ∑ q, w (update thr p t q) + w (thr p) = ∑ q, w (thr q) + w t := by
  have h : (fun q => w (update thr p t q)) =
      update (fun q => w (thr q)) p (w t) := by
    funext q
    by_cases hq : q = p
    · subst hq; simp
    · simp [hq]
  rw [h, Finset.sum_update_of_mem (Finset.mem_univ p), Finset.sdiff_singleton_eq_erase,
    ← Finset.add_sum_erase _ (fun q => w (thr q)) (Finset.mem_univ p), add_right_comm,
    add_comm (w t), add_assoc, add_comm (w t), ← add_assoc]

end Transition
