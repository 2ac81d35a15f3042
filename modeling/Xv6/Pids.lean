import Xv6.Reaping

/-!
# Process IDs

`allocproc` counts `nextpid` up and never looks at it. The process with number `u` has the
process ID `u + 1`, as a 32-bit integer with sign. So process IDs are positive and no two
processes have the same one exactly as long as fewer than `2 ^ 31` processes were made, those
whose `fork` failed included.
-/

open Transition

namespace Xv6.Ptable

/-- The process IDs of the processes there are are positive and distinct. -/
structure PidsOk (s : State) : Prop where
  pos : ∀ p, (s.proc p).state ≠ .unused → 0 < (s.proc p).pid
  inj : ∀ p q, (s.proc p).state ≠ .unused → (s.proc q).state ≠ .unused →
    (s.proc p).pid = (s.proc q).pid → p = q

section

variable {s s' : State} {a : Label}

/-- A step makes at most one process, and its number is the next. -/
theorem step_births (hs : step s a = some s') : s'.births = s.births ∨
    s'.births = s.births + 1 ∧ ∃ q, (s'.proc q).state ≠ .unused ∧ (s'.proc q).uid = s.births := by
  cases a with
  | dispatch | yield | fault | sleep =>
    obtain ⟨-, rfl⟩ := enabled hs
    exact .inl rfl
  | wakeup n =>
    cases hs
    exact .inl rfl
  | fork p =>
    simp only [step, Option.ite_none_right_eq_some] at hs
    obtain ⟨hp, hs⟩ := hs
    split at hs
    · cases hs
      exact .inl rfl
    · rename_i np hnp
      cases hs
      have hne : np ≠ p := by
        rintro rfl
        have hunused := unusedSlot_eq_some hnp
        rw [hp.1] at hunused
        cases hunused
      refine .inr ⟨rfl, np, ?_⟩
      rw [State.goto, modify_of_ne _ _ hne]
      simp [alloc]
  | forkFail | forkParent | forkDone =>
    simp only [step] at hs
    split at hs <;> cases hs
    exact .inl rfl
  | exit p =>
    obtain ⟨⟨-, hne⟩, rfl⟩ := enabled hs
    rw [exit_history hne]
    exact .inl rfl
  | wait p =>
    obtain ⟨-, rfl⟩ := enabled hs
    unfold wait
    split <;> exact .inl rfl
  | kill p pid =>
    obtain ⟨-, rfl⟩ := enabled hs
    unfold kill
    split <;> exact .inl rfl

end

/-- After the labels `labels`, every number that was given out is one that a process had then. -/
def Born (labels : List Label) (s : State) : Prop :=
  run step start labels = some s ∧ ∀ u < s.births, ∃ l1 l2 s1, labels = l1 ++ l2 ∧
    run step start l1 = some s1 ∧ ∃ q, (s1.proc q).state ≠ .unused ∧ (s1.proc q).uid = u

/-- Every step keeps this. -/
theorem Born.step {labels : List Label} {s s' : State} {a : Label} (h : Born labels s)
    (hs : step s a = some s') : Born (labels ++ [a]) s' := by
  have hrun : run Ptable.step start (labels ++ [a]) = some s' := by
    rw [run_append, h.1]
    simp [run, hs]
  refine ⟨hrun, fun u hu => ?_⟩
  have hold : u < s.births → ∃ l1 l2 s1, labels ++ [a] = l1 ++ l2 ∧
      run Ptable.step start l1 = some s1 ∧
      ∃ q, (s1.proc q).state ≠ .unused ∧ (s1.proc q).uid = u := by
    intro hu
    obtain ⟨l1, l2, s1, rfl, hrun1, hq⟩ := h.2 u hu
    exact ⟨l1, l2 ++ [a], s1, List.append_assoc .., hrun1, hq⟩
  rcases step_births hs with hb | ⟨hb, q, hq, huid⟩
  · exact hold (hb ▸ hu)
  · by_cases he : u = s.births
    · exact ⟨labels ++ [a], [], s', (List.append_nil _).symm, hrun, q, hq, huid.trans he.symm⟩
    · exact hold (by omega)

theorem start_born : Born [] start := by
  refine ⟨rfl, fun u hu => ⟨[], [], start, rfl, rfl, initproc, ?_, ?_⟩⟩
  · rw [start_init]
    simp
  · obtain rfl : u = 0 := Nat.lt_one_iff.1 hu
    rw [start_init]
    rfl

/-- It holds in every run. -/
theorem run_born {labels : List Label} {s : State} (h : run step start labels = some s) :
    Born labels s :=
  run_history (C := fun _ _ => True) (fun _ _ _ _ hI _ hs => hI.step hs) start_born
    (along_true _ _) h

theorem births_le {labels : List Label} {s s' : State} (h : run step s labels = some s') :
    s.births ≤ s'.births := by
  refine run_invariant (C := fun _ _ => True) (I := fun t => s.births ≤ t.births) ?_ le_rfl
    (along_true _ _) h
  rintro t a t' hle - hs
  rcases step_births hs with hb | ⟨hb, -⟩ <;> omega

theorem ofNat_succ_pos {u : ℕ} (hu : u + 1 < 2 ^ 31) : 0 < Int32.ofNat (u + 1) := by
  rw [Int32.lt_iff_toInt_lt, Int32.toInt_ofNat_of_lt hu]
  exact Int.natCast_pos.2 (Nat.succ_pos u)

theorem Hist.pidsOk {s : State} (h : Hist s) (hb : s.births < 2 ^ 31) : PidsOk s := by
  have hlt : ∀ p, (s.proc p).state ≠ .unused → (s.proc p).uid + 1 < 2 ^ 31 := fun p hp => by
    have := h.uid_lt p hp
    omega
  refine ⟨fun p hp => ?_, fun p q hp hq he => h.uid_inj p q hp hq ?_⟩
  · rw [h.pid p hp]
    exact ofNat_succ_pos (hlt p hp)
  · rw [h.pid p hp, h.pid q hq] at he
    have hp' := hlt p hp
    have hq' := hlt q hq
    exact ofNat_succ_inj (by omega) (by omega) he

/-- In the states of a run process IDs are positive and distinct if and only if fewer than
`2 ^ 31` processes were made. -/
theorem pids_ok_iff (labels : List Label) (s : State) (h : run step start labels = some s) :
    (∀ l1 l2 s1, labels = l1 ++ l2 → run step start l1 = some s1 → PidsOk s1) ↔
      s.births < 2 ^ 31 := by
  constructor
  · intro hok
    by_contra hge
    obtain ⟨l1, l2, s1, hl, hrun, q, hq, huid⟩ := (run_born h).2 (2 ^ 31 - 1) (by omega)
    have hpos := (hok l1 l2 s1 hl hrun).pos q hq
    rw [(run_inv hrun).2.pid q hq, huid] at hpos
    exact absurd hpos (by decide)
  · rintro hb l1 l2 s1 rfl hrun
    rw [run_append, hrun, Option.bind_some] at h
    exact (run_inv hrun).2.pidsOk ((births_le h).trans_lt hb)

/-- A child made by init. -/
theorem pids_ok_iff_child :
    ∃ s, run step start (.dispatch initproc :: forkChild) = some s ∧
      ((∀ l1 l2 s1, .dispatch initproc :: forkChild = l1 ++ l2 → run step start l1 = some s1 →
        PidsOk s1) ↔ s.births < 2 ^ 31) := by
  have h := (run_start forkChild).trans (run_forkChild 0 2 1 [] [])
  exact ⟨_, h, pids_ok_iff _ _ h⟩

/-- The child that init makes after `2 ^ 31 - 2` others has a negative process ID, and `fork`
returns it. -/
theorem fork_returns_negative :
    ∃ labels s, run step start labels = some s ∧ (s.proc 1).state = .runnable ∧
      (s.proc 1).parent = some initproc ∧ (s.proc 1).pid < 0 := by
  obtain ⟨u, b, e, r, hrun, -⟩ := run_cycles (2 ^ 31 - 2) 0 2 1 [] []
  have hend : run step start
      (.dispatch initproc :: ((List.replicate (2 ^ 31 - 2) cycle).flatten ++ forkChild)) =
      some (family ⟨.runnable, 2 + Int32.ofNat (2 ^ 31 - 2), some initproc, none, false, .user, b,
        0⟩ .user (2 + Int32.ofNat (2 ^ 31 - 2) + 1, b + 1, e, r)) := by
    rw [run_start, run_append, hrun, Option.bind_some, run_forkChild]
  have hneg : (2 : Int32) + Int32.ofNat (2 ^ 31 - 2) < 0 := by decide
  refine ⟨_, _, hend, ?_⟩
  rw [family_one]
  exact ⟨rfl, rfl, hneg⟩

end Xv6.Ptable
