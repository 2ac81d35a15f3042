import Xv6.Ptable

/-!
# The idle CPU

The loop of `scheduler` of `proc.c` on one CPU, with its call of `halt` when a scan of the process
table found nothing to run. An interrupt may be taken wherever interrupts are enabled, and its
handler may call `wakeup`. A process that is switched to comes back with `ptable.lock` held and
interrupts disabled, having done what it likes to the process table.

The scan is made with interrupts disabled, but `release` enables them again before `halt`. So a
CPU halts with nothing to run if no process is woken in between (`halt_idle`).
-/

open Transition

namespace Xv6.Halt

open Ptable (Slot Chan wakeup1)

/-- Where the scheduler is. -/
inductive Pc where
  | sti
  | acquire
  /-- In the loop, at process `i`. -/
  | loop (i : ℕ)
  /-- The CPU runs process `i`. -/
  | run (i : ℕ)
  | release
  /-- At `if (ran == 0)`. -/
  | test
  | halt
  deriving DecidableEq

/-- The CPU and the process table. -/
structure State where
  table : Ptable.State
  pc : Pc
  ran : Bool
  ncli : ℕ
  /-- Whether interrupts were enabled before `pushcli`. -/
  intena : Bool
  interrupts : Bool

/-- A step. -/
inductive Label where
  /-- The scheduler goes on. -/
  | cpu
  /-- The process comes back to the scheduler, with the table and `intena` it leaves. -/
  | process (table : Ptable.State) (intena : Bool)
  /-- An interrupt, whose handler calls `wakeup` for each of the channels. -/
  | intr (chans : List Chan)

/-- The calls of `wakeup` of a handler. -/
def wakeups (t : Ptable.State) (chans : List Chan) : Ptable.State :=
  chans.foldl (fun t c => wakeup1 t (some c)) t

/-- `acquire`, where the lock is free. -/
def State.acquire (s : State) : State :=
  { s with
    intena := if s.ncli = 0 then s.interrupts else s.intena
    ncli := s.ncli + 1
    interrupts := false }

/-- `release`; none where `popcli` panics. -/
def State.release (s : State) : Option State :=
  if s.interrupts = true ∨ s.ncli = 0 then none
  else some { s with ncli := s.ncli - 1, interrupts := decide (s.ncli = 1) && s.intena }

/-- A turn of the loop over the process table. -/
def turn (s : State) (i : ℕ) : State :=
  if h : i < NPROC then
    if (s.table.proc ⟨i, h⟩).state ≠ .runnable then { s with pc := .loop (i + 1) }
    else { s with
      ran := true
      table := s.table.modify ⟨i, h⟩ fun p => { p with state := .running }
      pc := .run i }
  else { s with pc := .release }

def step (s : State) : Label → Option State
  | .cpu =>
    match s.pc with
    | .sti => some { s with interrupts := true, pc := .acquire }
    | .acquire => some { s.acquire with ran := false, pc := .loop 0 }
    | .loop i => some (turn s i)
    | .run _ => none
    | .release => s.release.map fun s => { s with pc := .test }
    | .test => some { s with pc := if s.ran then .sti else .halt }
    | .halt => some { s with pc := .sti }
  | .process table intena =>
    match s.pc with
    | .run i => some { s with table := table, intena := intena, pc := .loop (i + 1) }
    | _ => none
  | .intr chans => if s.interrupts then some { s with table := wakeups s.table chans } else none

/-- The CPU enters its scheduler. -/
def start (table : Ptable.State) : State :=
  ⟨table, .sti, false, 0, false, false⟩

/-- A process can run. -/
def State.work (s : State) : Prop :=
  ∃ p, (s.table.proc p).state = .runnable

/-- No process is woken from `release` to `halt`. -/
def Calm (s : State) : Label → Prop
  | .intr chans => s.pc = .test ∨ s.pc = .halt → wakeups s.table chans = s.table
  | _ => True

/-- What holds where the scheduler is. -/
def Inv (s : State) : Prop :=
  match s.pc with
  | .sti | .acquire => True
  | .loop i => s.interrupts = false ∧
    (s.ran = false → ∀ p : Slot, p < i → (s.table.proc p).state ≠ .runnable)
  | .run _ => s.interrupts = false ∧ s.ran = true
  | .release => s.interrupts = false ∧ (s.ran = false → ¬ s.work)
  | .test => s.ran = false → ¬ s.work
  | .halt => ¬ s.work

theorem turn_inv {s : State} {i : ℕ} (hi : s.interrupts = false)
    (h : s.ran = false → ∀ p : Slot, p < i → (s.table.proc p).state ≠ .runnable) :
    Inv (turn s i) := by
  unfold turn
  split_ifs with hlt hr
  · refine ⟨hi, fun hran p hp => ?_⟩
    rcases Nat.lt_succ_iff_lt_or_eq.1 hp with hp | hp
    · exact h hran p hp
    · rwa [show p = ⟨i, hlt⟩ from Fin.ext hp]
  · exact ⟨hi, rfl⟩
  · refine ⟨hi, fun hran => ?_⟩
    rintro ⟨p, hp⟩
    exact h hran p (by omega) hp

/-- Every calm step keeps the invariant. -/
theorem step_inv {s s' : State} {a : Label} (h : Inv s) (hc : Calm s a) (hs : step s a = some s') :
    Inv s' := by
  cases a with
  | cpu =>
    simp only [step] at hs
    unfold Inv at h
    split at hs <;> rename_i hpc <;> rw [hpc] at h
    · cases hs
      trivial
    · cases hs
      exact ⟨rfl, fun _ p hp => absurd hp (Nat.not_lt_zero _)⟩
    · cases hs
      exact turn_inv h.1 h.2
    · cases hs
    · obtain ⟨t, ht, rfl⟩ := Option.map_eq_some_iff.1 hs
      unfold State.release at ht
      split_ifs at ht
      cases ht
      exact h.2
    · cases hs
      show Inv { s with pc := if s.ran = true then Pc.sti else Pc.halt }
      split_ifs with hran
      · trivial
      · exact h (by simpa using hran)
    · cases hs
      trivial
  | process table intena =>
    simp only [step] at hs
    split at hs
    · rename_i i hpc
      cases hs
      unfold Inv at h
      rw [hpc] at h
      exact ⟨h.1, fun hran => absurd (hran.symm.trans h.2) (by decide)⟩
    · cases hs
  | intr chans =>
    obtain ⟨hon, rfl⟩ := enabled hs
    cases hpc : s.pc with
    | sti | acquire => trivial
    | loop i | run i | release =>
      -- interrupts are disabled
      simp [Inv, hpc, hon] at h
    | test | halt =>
      rw [hc (by simp [hpc]), ← hpc]
      exact h

/-- A CPU halts with no process to run, if none is woken between `release` and `halt`. -/
theorem halt_idle (table : Ptable.State) (labels : List Label) (s : State)
    (h : run step (start table) labels = some s) (hcalm : Along step Calm (start table) labels)
    (hpc : s.pc = .halt) : ¬ s.work := by
  have hstart : Inv (start table) := trivial
  have hinv := run_invariant (fun _ _ _ hi hc hs => step_inv hi hc hs) hstart hcalm h
  unfold Inv at hinv
  rwa [hpc] at hinv

/-- All processes sleep. -/
def asleep : Ptable.State :=
  { Ptable.start with
    proc := fun _ => { Ptable.Proc.empty with state := .sleeping, chan := some (.other 0) } }

/-- The steps of a scan that finds nothing to run, to `if (ran == 0)`. -/
def scan : List Label :=
  List.replicate (NPROC + 4) .cpu

/-- Nothing is woken, and the CPU halts. -/
theorem halt_idle_asleep :
    ∃ s, run step (start asleep) (scan ++ [.cpu]) = some s ∧ s.pc = .halt ∧ ¬ s.work := by
  have hs : (run step (start asleep) (scan ++ [.cpu])).map State.pc = some .halt := by
    decide +kernel
  obtain ⟨s, hs, hpc⟩ := Option.map_eq_some_iff.1 hs
  have hcpu : ∀ a ∈ scan ++ [.cpu], a = .cpu := by
    simp [scan]
  refine ⟨s, hs, hpc, halt_idle asleep _ s hs ((along_of_forall hcpu).mono ?_) hpc⟩
  rintro _ _ rfl
  trivial

/-- A process is woken at the test. -/
theorem halt_with_work :
    ∃ s, run step (start asleep) (scan ++ [.intr [.other 0], .cpu]) = some s ∧ s.pc = .halt ∧
      s.work := by
  have hs : (run step (start asleep) (scan ++ [.intr [.other 0], .cpu])).map
      (fun s => (s.pc, (s.table.proc 0).state)) = some (.halt, .runnable) := by
    decide +kernel
  obtain ⟨s, hs, hst⟩ := Option.map_eq_some_iff.1 hs
  obtain ⟨hpc, hwork⟩ := Prod.mk.inj hst
  exact ⟨s, hs, hpc, 0, hwork⟩

end Xv6.Halt
