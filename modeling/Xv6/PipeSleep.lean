import Xv6.PipeFifo

/-!
# Sleepers on a pipe

A reader sleeps on `&p->nread` only while the pipe is empty and a writer may come, and a
writer sleeps on `&p->nwrite` only while the pipe is full and a reader may come
(`Attended`). The holder of `p->lock` may end either situation, and wakes the sleepers
before it releases the lock (`Waiting`).

There is one exception : a `pipewrite` that fills the pipe, and then finds that it is
killed or that the read end is closed, returns `-1` without a `wakeup`. The bytes it stored
stay in the pipe, and a reader that slept when they were stored sleeps on.
-/

set_option linter.unusedSectionVars false

open Transition

namespace Xv6.Pipe

variable {P : Type*} [DecidableEq P] {s s' : State P} {p : P}

/-- The processes asleep on the pipe have a reason to be. -/
def Attended (s : State P) : Prop :=
  ∀ q c, (s.proc q).state = .sleeping → (s.proc q).chan = some c → Cond s.pipe c

/-- When `pipewrite` returns `-1` from a full pipe, no process sleeps on `&p->nread` or is
about to. -/
def Noticed (s : State P) (a : Label P) : Prop :=
  GivesUp s a → ∀ q, ¬ (s.proc q).Waits .nread

/-- A process that waits has a reason to, or will be woken by the holder of `p->lock`. -/
def Waiting (s : State P) : Prop :=
  ∀ q c, (s.proc q).Waits c →
    Cond s.pipe c ∨ ∃ h, s.lock = some h ∧ (s.proc h).pc.owes c = true

theorem start_waiting (data : Fin PIPESIZE → UInt8) : Waiting (start P data) := by
  rintro q c (⟨k, hk, -⟩ | ⟨hk, -⟩) <;> cases hk

theorem Pc.holds_of_owes {pc : Pc} {c : Chan} (h : pc.owes c = true) : pc.holds = true := by
  unfold Pc.owes at h
  split at h
  all_goals first | rfl | cases h

theorem Move.waits_before {a : Label P} {t : Proc} (hm : Move s a s' p t) {q : P} {c : Chan}
    (hw : (s'.proc q).Waits c) : (s.proc q).Waits c ∨ Cond s.pipe c := by
  by_cases hq : q = p
  · subst hq
    rw [hm.becomes.self] at hw
    exact hm.waits c hw
  · refine .inl ?_
    rcases hw with ⟨k, hk, hc⟩ | ⟨hk, hc⟩
    · exact .inl ⟨k, by rw [← hm.becomes.pc q hq, hk], hc⟩
    · exact .inr ⟨hm.becomes.state q hq hk, by rw [← hm.becomes.chan q hq, hc]⟩

theorem GivesUp.owes {a : Label P} (h : Locks s) (hg : GivesUp s a) (hl : s.lock = some p)
    {c : Chan} (ho : (s.proc p).pc.owes c = true) : c = .nread := by
  cases a with
  | turn q =>
    obtain ⟨w, hpc, -⟩ := hg
    have hq := (h.lock q).2 (by rw [hpc]; rfl)
    obtain rfl : q = p := Option.some.inj (hq.symm.trans hl)
    simpa [hpc, Pc.owes] using ho
  | _ => cases hg

theorem Move.waiting {a : Label P} {t : Proc} (h : Locks s) (hw : Waiting s)
    (hm : Move s a s' p t) (hn : Noticed s a) : Waiting s' := by
  intro q c hq
  have hlocks' := hm.locks h
  rcases hm.owes c with ho | ⟨hcond, hno⟩
  · refine .inr ⟨p, ?_, by rw [hm.becomes.self, ho]⟩
    rw [hlocks'.lock, hm.becomes.self]
    exact Pc.holds_of_owes ho
  · by_cases hc : Cond s.pipe c
    · exact .inl (hcond hc)
    have hq0 : (s.proc q).Waits c := (hm.waits_before hq).resolve_right hc
    obtain ⟨r, hr, hro⟩ := (hw q c hq0).resolve_left hc
    by_cases hrp : r = p
    · -- the holder moved on and owes no more : it has woken the sleepers, or it gave up
      subst hrp
      rcases hno hro with hnone | hg
      · exact absurd hq (hnone q)
      · rw [hg.owes h hr hro] at hq0
        exact absurd hq0 (hn hg q)
    · refine .inr ⟨r, ?_, by rw [hm.becomes.pc r hrp, hro]⟩
      rw [hlocks'.lock, hm.becomes.pc r hrp, ← h.lock, hr]

/-! ## Runs -/

/-- It holds in every run whose steps are `Noticed`. -/
theorem run_waiting {data : Fin PIPESIZE → UInt8} {labels : List (Label P)}
    (h : run step (start P data) labels = some s)
    (hn : Along step Noticed (start P data) labels) : Waiting s := by
  have hw : Inv s ∧ Waiting s := by
    refine run_invariant (C := Noticed) (I := fun s => Inv s ∧ Waiting s) ?_
      ⟨start_inv data, start_waiting data⟩ hn h
    intro s a s' hi hna hs
    obtain ⟨p, t, hm⟩ := step_move hi.1.locks hi.1.calls.index hs
    exact ⟨step_inv hi.1 hs, hm.waiting hi.1.locks hi.2 hna⟩
  exact hw.2

/-- After `pipewrite` has given up, a reader that waits is stranded, now or once it is
asleep. -/
theorem stranded_of_givesUp {a : Label P} (h : Inv s) (hs : step s a = some s')
    (hg : GivesUp s a) {q : P} (hq : (s.proc q).Waits .nread) :
    ∃ more s2, run step s' more = some s2 ∧ s2.lock = none ∧ ¬ Attended s2 := by
  cases a with
  | turn p =>
    obtain ⟨w, hpc, hfull, hfail⟩ := hg
    simp only [step, turn, hpc, if_pos hfull, if_pos hfail, Option.ite_none_left_eq_some,
      Option.some.injEq] at hs
    obtain ⟨hfreed, rfl⟩ := hs
    have hne : ¬ Cond s.pipe .nread := by
      rintro ⟨hempty, -⟩
      have h0 := s.pipe.length_eq_zero.2 hempty
      rw [(full_iff _).1 hfull] at h0
      cases h0
    have hqp : q ≠ p := by
      rintro rfl
      rcases hq with ⟨k, hk, -⟩ | ⟨hk, -⟩
      · rw [hpc] at hk
        cases hk
      · exact Ready.not_sleeping ⟨h.locks, h.calls.index q⟩ hpc (by simp) hk
    have hproc : (ret s p (.write w (-1))).proc q = s.proc q := Function.update_of_ne hqp _ _
    rcases hq with ⟨k, hk, hc⟩ | ⟨hk, hc⟩
    · refine ⟨[.turn q], (ret s p (.write w (-1))).modify q fun r =>
        { r with chan := some k.chan, state := .sleeping, pc := .sleep k .switched }, ?_, rfl, ?_⟩
      · have hf : (ret s p (.write w (-1))).freed = false := by
          change s.freed = false
          simpa using hfreed
        simp [run, step, turn, hproc, hk, sleepTurn, hf]
      · intro hat
        exact hne (hat q .nread (by simp [State.modify]) (by simp [State.modify, hc]))
    · refine ⟨[], _, rfl, rfl, fun hat => ?_⟩
      exact hne (hat q .nread (by rw [hproc, hk]) (by rw [hproc, hc]))
  | _ => cases hg

/-- While `pipewrite` gives up only when no process waits on `&p->nread`, in every state with
`p->lock` free a process asleep on `&p->nread` finds the pipe empty and its write end open, and one
asleep on `&p->nwrite` finds it full and its read end open. From a step of any run that does not
meet the condition, a state is reached in which this fails. -/
theorem sleepers_attended (data : Fin PIPESIZE → UInt8) (labels : List (Label P)) (s : State P)
    (h : run step (start P data) labels = some s) :
    (Along step Noticed (start P data) labels → s.lock = none → Attended s) ∧
      ∀ a s', step s a = some s' → ¬ Noticed s a →
        ∃ more s2, run step s' more = some s2 ∧ s2.lock = none ∧ ¬ Attended s2 := by
  refine ⟨fun hn hl q c hs hc => ?_, fun a s' hs hna => ?_⟩
  · rcases run_waiting h hn q c (.inr ⟨hs, hc⟩) with hcond | ⟨r, hr, -⟩
    · exact hcond
    · rw [hl] at hr
      cases hr
  · simp only [Noticed, Classical.not_imp, not_forall, not_not] at hna
    obtain ⟨hg, q, hq⟩ := hna
    exact stranded_of_givesUp (run_inv h) hs hg hq

/-- A reader falls asleep on the empty pipe. -/
theorem sleepers_attended_reader :
    let labels : List (Label Bool) := .read true 1 :: List.replicate 6 (.turn true)
    (run step (start Bool fun _ => 0) labels).map
        (fun s => (s.lock, (s.proc true).state, (s.proc true).chan)) =
        some (none, .sleeping, some .nread) ∧
      ∀ s, run step (start Bool fun _ => 0) labels = some s → Attended s := by
  refine ⟨by decide, fun s h => (sleepers_attended _ _ s h).1 ?_ ?_⟩
  · refine along_cons rfl False.elim ?_
    repeat
      refine along_cons rfl ?_ ?_
      · rintro ⟨w, hw, -⟩
        cases hw
    trivial
  · cases h
    rfl

/-- A reader sleeps on the empty pipe; a writer, killed once it is in `pipewrite`, fills the
pipe and gives up; the reader sleeps on. -/
theorem reader_stranded :
    ∃ s, run step (start Bool fun _ => 0)
        (.read true 1 :: List.replicate 6 (.turn true) ++
          .write false (fun _ => 0) 513 :: .turn false :: .kill false ::
            List.replicate 1026 (.turn false)) =
        some s ∧ s.lock = none ∧
      (s.proc true).state = .sleeping ∧ (s.proc true).chan = some .nread ∧
      s.pipe.nread ≠ s.pipe.nwrite := by
  have h : (run step (start Bool fun _ => 0)
      (.read true 1 :: List.replicate 6 (.turn true) ++
        .write false (fun _ => 0) 513 :: .turn false :: .kill false ::
          List.replicate 1026 (.turn false))).map
      (fun s => (s.lock, (s.proc true).state, (s.proc true).chan,
        decide (s.pipe.nread = s.pipe.nwrite))) = some (none, .sleeping, some .nread, false) := by
    decide +kernel
  obtain ⟨s, hs, hview⟩ := Option.map_eq_some_iff.1 h
  simp only [Prod.mk.injEq, decide_eq_false_iff_not] at hview
  exact ⟨s, hs, hview.1, hview.2.1, hview.2.2.1, hview.2.2.2⟩

end Xv6.Pipe
