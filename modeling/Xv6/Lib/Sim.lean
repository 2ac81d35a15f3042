import Xv6.Lib.Wp

/-!
# Simulation of programs with state and stops

`Sim R V X m m'` says that the two programs do the same up to the relations : from states that `R`
relates, both return, with values related by `V` and states related by `R`, or both stop, with
errors related by `X`. Simulations compose along sequencing and choices, so that two programs of the
same shape are compared piece by piece.
-/

namespace Prog

variable {ε ε' σ σ' α α' β β' : Type}

/-- From related states both programs return, related, or both stop, related. -/
def Sim (R : σ → σ' → Prop) (V : α → α' → Prop) (X : ε → ε' → Prop) (m : EStateM ε σ α)
    (m' : EStateM ε' σ' α') : Prop :=
  ∀ s s', R s s' → wp m
    (fun a t => wp m' (fun a' t' => V a a' ∧ R t t') (fun _ _ => False) s')
    (fun e _ => wp m' (fun _ _ => False) (fun e' _ => X e e') s') s

variable {R : σ → σ' → Prop} {V : α → α' → Prop} {W : β → β' → Prop} {X : ε → ε' → Prop}
  {m : EStateM ε σ α} {m' : EStateM ε' σ' α'}

theorem sim_pure {a : α} {a' : α'} (h : V a a') : Sim R V X (pure a) (pure a') :=
  fun _ _ hR => ⟨h, hR⟩

theorem sim_throw {e : ε} {e' : ε'} (h : X e e') : Sim R V X (throw e) (throw e') :=
  fun _ _ _ => h

/-- Simulations compose. -/
theorem sim_bind {f : α → EStateM ε σ β} {f' : α' → EStateM ε' σ' β'} (h : Sim R V X m m')
    (hf : ∀ a a', V a a' → Sim R W X (f a) (f' a')) : Sim R W X (m >>= f) (m' >>= f') := by
  intro s s' hR
  have hm := h s s' hR
  rw [wp_bind]
  refine wp_mono' hm ?_ ?_
  · intro a t ha
    cases hm' : m' s' with
    | error e' t' =>
      simp only [wp, hm'] at ha
    | ok a' t' =>
      obtain ⟨hV, hR'⟩ := wp_ok ha hm'
      refine wp_mono' (hf a a' hV t t' hR') ?_ ?_
      · intro b u hb
        rwa [wp_bind, wp_iff_of_ok hm']
      · intro e u he
        rwa [wp_bind, wp_iff_of_ok hm']
  · intro e t he
    rw [wp_bind]
    exact wp_mono' he (fun _ _ => False.elim) fun _ _ => id

theorem sim_bind_left {f : α → EStateM ε σ β} {W : β → α' → Prop} (h : Sim R V X m m')
    (hf : ∀ a a' s s', V a a' → R s s' →
      wp (f a) (fun b t => W b a' ∧ R t s') (fun _ _ => False) s) : Sim R W X (m >>= f) m' := by
  intro s s' hR
  rw [wp_bind]
  refine wp_mono (h s s' hR) ?_
  intro a t ha
  cases hm' : m' s' with
  | error e' t' => simp only [wp, hm'] at ha
  | ok a' t' =>
    obtain ⟨hV, hR'⟩ := wp_ok ha hm'
    refine wp_mono' (hf a a' t t' hV hR') ?_ fun _ _ => False.elim
    intro b u hb
    rwa [wp_iff_of_ok hm']

theorem sim_ite {c c' : Prop} [Decidable c] [Decidable c'] {n : EStateM ε σ α}
    {n' : EStateM ε' σ' α'} (hc : c ↔ c') (h : c → Sim R V X m m') (h' : ¬ c → Sim R V X n n') :
    Sim R V X (if c then m else n) (if c' then m' else n') := by
  by_cases hcc : c
  · rw [if_pos hcc, if_pos (hc.1 hcc)]
    exact h hcc
  · rw [if_neg hcc, if_neg fun h0 => hcc (hc.2 h0)]
    exact h' hcc

theorem sim_get {f : σ → EStateM ε σ α} {f' : σ' → EStateM ε' σ' α'}
    (h : ∀ s s', R s s' → Sim R V X (f s) (f' s')) : Sim R V X (get >>= f) (get >>= f') :=
  fun s s' hR => h s s' hR s s' hR

/-- A run that returns is simulated by one that returns. -/
theorem Sim.ok (h : Sim R V X m m') {s t : σ} {s' : σ'} {a : α} (hR : R s s') (hm : m s = .ok a t) :
    ∃ a' t', m' s' = .ok a' t' ∧ V a a' ∧ R t t' :=
  exists_ok_of_wp (wp_ok (h s s' hR) hm)

/-- A run that fails is simulated by one that fails. -/
theorem Sim.error (h : Sim R V X m m') {s t : σ} {s' : σ'} {e : ε} (hR : R s s')
    (hm : m s = .error e t) : ∃ e' t', m' s' = .error e' t' ∧ X e e' := by
  have herr := wp_error (h s s' hR) hm
  cases hm' : m' s' with
  | ok a' t' => exact (wp_ok herr hm').elim
  | error e' t' => exact ⟨e', t', rfl, wp_error herr hm'⟩

end Prog
