import Xv6.Ptable

/-!
# Scheduling

The hand-over of CPUs between processes : `scheduler`, `sched`, `swtch`, `yield`, `sleep`,
`wakeup`, `exit`, `wait`, `kill`, `fork` and `forkret` of `proc.c`, with the spin locks of
`spinlock.c`, on any number of CPUs.

A kernel function is a list of instructions (`Instr`), one for each lock operation and each change
of shared state, and `wakeup1` has one for each slot. A CPU executes the instructions of the thread
whose stack it is on : a process, or its own scheduler, a loop with a program counter (`SchedPc`).
Where interrupts are enabled an interrupt puts the instructions of its handler in front. `swtch` is
two steps, that save a context and that load the other one.

Between the functions a process may acquire and release other locks as it likes. What a search of
the process table finds, and whether memory is left, is decided by the label. A step that would
panic cannot be taken.

Beside the fields of the source the state has a history : whether the context of a process is
saved; for a process that has tested a condition and called `sleep`, the channel and the lock of
that call (`episode`), and whether it has been woken since; and for each thread, the processes
whose lock it has acquired after they tested (`fresh`).
-/

set_option linter.unusedSectionVars false

namespace Xv6.Sched

open Ptable (Slot ProcState Chan)

/-- A spin lock. -/
inductive Lock where
  | ptable
  | other (n : ℕ)
  deriving DecidableEq

/-- A step of a kernel function. -/
inductive Instr where
  | pushcli
  | popcli
  /-- `acquire` after `pushcli`. -/
  | lock (l : Lock)
  /-- `release` before `popcli`. -/
  | unlock (l : Lock)
  | setChan (ch : Option Chan)
  | setState (st : ProcState)
  /-- The tests of `sched`. -/
  | check
  | saveIntena
  /-- `swtch` saves the context of the process. -/
  | save
  /-- `swtch` loads the context of the scheduler. -/
  | load
  | restoreIntena
  /-- The turn of `wakeup1` for slot `q`. -/
  | wake (ch : Chan) (q : Slot)
  /-- The turn of `kill` that finds slot `q`. -/
  | kill (q : Slot)
  | alloc
  /-- `allocproc` after it released the lock, and `fork` up to `np->cwd`. -/
  | setup
  /-- `np->state = RUNNABLE`. -/
  | ready
  /-- A turn of the loop of `wait`. -/
  | scan
  /-- The end of `exit`, which is not reached. -/
  | zombieExit
  /-- The test of `trap` whether the process is to yield. -/
  | tick
  | iret
  deriving DecidableEq

/-! ## Kernel functions -/

def acquire (l : Lock) : List Instr :=
  [.pushcli, .lock l]

def release (l : Lock) : List Instr :=
  [.unlock l, .popcli]

def sched : List Instr :=
  [.check, .saveIntena, .save, .load, .restoreIntena]

def yield : List Instr :=
  acquire .ptable ++ [.setState .runnable] ++ sched ++ release .ptable

/-- `sleep`, from where the process sets its channel to where it has cleared it. -/
def goToSleep (ch : Chan) : List Instr :=
  [.setChan (some ch), .setState .sleeping] ++ sched ++ [.setChan none]

def sleep (ch : Chan) (lk : Lock) : List Instr :=
  if lk = .ptable then goToSleep ch
  else acquire .ptable ++ release lk ++ goToSleep ch ++ release .ptable ++ acquire lk

def wakeup1 (ch : Chan) : List Instr :=
  (List.finRange NPROC).map (.wake ch)

def wakeup (ch : Chan) : List Instr :=
  acquire .ptable ++ wakeup1 ch ++ release .ptable

/-- `switchuvm` of a process for itself. -/
def switchuvm : List Instr :=
  [.pushcli, .popcli]

/-- `kill` of the process in slot `q`. -/
def kill (q : Slot) : List Instr :=
  acquire .ptable ++ [.kill q] ++ release .ptable

/-- `exit`, from where it takes `ptable.lock`. It wakes the parent, and init for every
abandoned zombie. -/
def exit (wakes : List Chan) : List Instr :=
  acquire .ptable ++ wakes.flatMap wakeup1 ++ [.setState .zombie] ++ sched ++ [.zombieExit]

def wait : List Instr :=
  acquire .ptable ++ [.scan]

def fork : List Instr :=
  acquire .ptable ++ [.alloc]

/-- `forkret`, which returns to `trapret`. -/
def forkret : List Instr :=
  release .ptable ++ [.iret]

/-- What a handler of an interrupt does with a lock held. -/
def service (wakes : List Chan) : Option ℕ → List Instr
  | some n => acquire (.other n) ++ wakes.flatMap wakeup ++ release (.other n)
  | none => []

/-- `trap` for an interrupt : the handler may take a lock and wake processes, and the timer
makes a process yield. -/
def trap (lk : Option ℕ) (wakes : List Chan) (timer : Bool) : List Instr :=
  service wakes lk ++ (if timer then [.tick] else []) ++ [.iret]

/-! ## State -/

/-- Where the scheduler of a CPU is. -/
inductive SchedPc where
  /-- At `sti`. -/
  | top
  /-- At `acquire(&ptable.lock)`. -/
  | pushcli
  /-- After `pushcli` in `acquire`. -/
  | lock
  /-- In the loop over the processes. -/
  | loop
  /-- At `switchuvm`, having set `proc = p`. -/
  | uvm (p : Slot)
  /-- At `popcli` in `switchuvm`. -/
  | uvmPop (p : Slot)
  /-- At `p->state = RUNNING`. -/
  | run (p : Slot)
  /-- `swtch` is to save the context of the scheduler. -/
  | save (p : Slot)
  /-- `swtch` is to load the context of the process. -/
  | load (p : Slot)
  /-- Back from `swtch`, at `proc = 0`. -/
  | back
  /-- At `release(&ptable.lock)`. -/
  | unlock
  /-- At `popcli` in `release`. -/
  | popcli
  deriving DecidableEq

/-- `struct cpu`, with the scheduler of the CPU. -/
structure Cpu where
  proc : Option Slot
  ncli : ℕ
  /-- Whether interrupts were enabled before `pushcli`. -/
  intena : Bool
  interrupts : Bool
  /-- The process on whose stack the CPU is, or none for that of its scheduler. -/
  on : Option Slot
  pc : SchedPc
  /-- What is left of the handler of an interrupt of the scheduler. -/
  code : List Instr

/-- `struct proc`, with what is left of the function it is in, and its history. -/
structure Proc where
  state : ProcState
  chan : Option Chan
  killed : Bool
  /-- The instructions it has still to execute. -/
  code : List Instr
  /-- `intena` of `sched`. -/
  intena : Bool
  np : Option Slot
  saved : Bool
  /-- The last call of `sleep` before which it tested a condition. -/
  episode : Option (Chan × Lock)
  woken : Bool

/-- A thread : the scheduler of a CPU, or a process. -/
inductive Tid (C : Type*) where
  | sched (c : C)
  | proc (p : Slot)
  deriving DecidableEq

/-- The CPUs, the locks and the processes. -/
structure State (C : Type*) where
  cpu : C → Cpu
  holder : Lock → Option C
  proc : Slot → Proc
  /-- The thread has acquired the lock of the process after it tested. -/
  fresh : Tid C → Slot → Bool

/-- A slot never used. -/
def Proc.empty : Proc :=
  ⟨.unused, none, false, [], false, none, false, none, false⟩

/-- The state after `userinit`, with every CPU about to enter its scheduler. -/
def start (C : Type*) : State C where
  cpu _ := ⟨none, 0, false, false, none, .top, []⟩
  holder _ := none
  proc p :=
    if p = Ptable.initproc then
      { Proc.empty with state := .runnable, code := forkret, saved := true }
    else Proc.empty
  fresh _ _ := false

variable {C : Type*} [DecidableEq C]

def State.modCpu (s : State C) (c : C) (f : Cpu → Cpu) : State C :=
  { s with cpu := Function.update s.cpu c (f (s.cpu c)) }

def State.modProc (s : State C) (p : Slot) (f : Proc → Proc) : State C :=
  { s with proc := Function.update s.proc p (f (s.proc p)) }

/-- The thread on CPU `c`. -/
def State.tid (s : State C) (c : C) : Tid C :=
  match (s.cpu c).on with
  | none => .sched c
  | some p => .proc p

/-- The instructions of the thread on CPU `c`. -/
def State.code (s : State C) (c : C) : List Instr :=
  match (s.cpu c).on with
  | none => (s.cpu c).code
  | some p => (s.proc p).code

/-- The thread on CPU `c` goes on with `code`. -/
def State.setCode (s : State C) (c : C) (code : List Instr) : State C :=
  match (s.cpu c).on with
  | none => s.modCpu c fun x => { x with code := code }
  | some p => s.modProc p fun x => { x with code := code }

section

variable {s : State C} {c c' : C} {p q : Slot} {k : List Instr} {f : Cpu → Cpu} {g : Proc → Proc}

@[simp] theorem modCpu_self : (s.modCpu c f).cpu c = f (s.cpu c) :=
  Function.update_self ..

theorem modCpu_of_ne (h : c' ≠ c) : (s.modCpu c f).cpu c' = s.cpu c' :=
  Function.update_of_ne h ..

@[simp] theorem modCpu_proc : (s.modCpu c f).proc = s.proc :=
  rfl

@[simp] theorem modCpu_holder : (s.modCpu c f).holder = s.holder :=
  rfl

@[simp] theorem modProc_self : (s.modProc p g).proc p = g (s.proc p) :=
  Function.update_self ..

theorem modProc_of_ne (h : q ≠ p) : (s.modProc p g).proc q = s.proc q :=
  Function.update_of_ne h ..

@[simp] theorem modProc_cpu : (s.modProc p g).cpu = s.cpu :=
  rfl

@[simp] theorem modProc_holder : (s.modProc p g).holder = s.holder :=
  rfl

theorem code_on (h : (s.cpu c).on = some p) : s.code c = (s.proc p).code := by
  simp [State.code, h]

theorem of_on {on : Option Slot} {f : Slot → Option (State C)}
    (h : (match on with
      | some p => f p
      | none => none) = some s) : ∃ p, on = some p ∧ f p = some s := by
  cases on with
  | none => cases h
  | some p => exact ⟨p, rfl, h⟩

theorem code_off (h : (s.cpu c).on = none) : s.code c = (s.cpu c).code := by
  simp [State.code, h]

theorem setCode_on (h : (s.cpu c).on = some p) :
    s.setCode c k = s.modProc p fun x => { x with code := k } := by
  simp [State.setCode, h]

theorem setCode_off (h : (s.cpu c).on = none) :
    s.setCode c k = s.modCpu c fun x => { x with code := k } := by
  simp [State.setCode, h]

@[simp] theorem setCode_holder : (s.setCode c k).holder = s.holder := by
  unfold State.setCode
  split <;> rfl

theorem setCode_cpu (c' : C) :
    (s.setCode c k).cpu c' = s.cpu c' ∨
      (s.cpu c).on = none ∧ c' = c ∧ (s.setCode c k).cpu c' = { s.cpu c with code := k } := by
  cases h : (s.cpu c).on with
  | some p => simp [setCode_on h]
  | none =>
    by_cases hc : c' = c
    · subst hc
      simp [setCode_off h]
    · simp [setCode_off h, modCpu_of_ne hc]

/-- `setCode` changes the process on CPU `c` only. -/
theorem setCode_proc (q : Slot) :
    (s.setCode c k).proc q = s.proc q ∧ (s.cpu c).on ≠ some q ∨
      (s.cpu c).on = some q ∧ (s.setCode c k).proc q = { s.proc q with code := k } := by
  cases h : (s.cpu c).on with
  | some p =>
    by_cases hq : q = p
    · subst hq
      simp [setCode_on h]
    · simp [setCode_on h, modProc_of_ne hq, Ne.symm hq]
  | none => simp [setCode_off h]

@[simp] theorem setCode_code : (s.setCode c k).code c = k := by
  cases h : (s.cpu c).on with
  | some p => simp [State.code, setCode_on h, h]
  | none => simp [State.code, setCode_off h, h]

end

/-! ## Steps -/

def Cpu.pushcli (x : Cpu) : Cpu :=
  { x with
    intena := if x.ncli = 0 then x.interrupts else x.intena
    ncli := x.ncli + 1
    interrupts := false }

/-- `popcli`, where it does not panic. -/
def Cpu.popcli (x : Cpu) : Option Cpu :=
  if x.interrupts = true ∨ x.ncli = 0 then none
  else some { x with ncli := x.ncli - 1, interrupts := decide (x.ncli = 1) && x.intena }

/-- The thread on CPU `c` gets lock `l`, if it is free. -/
def State.lock (s : State C) (c : C) (l : Lock) : Option (State C) :=
  if s.holder l = none then
    some { s with
      holder := Function.update s.holder l (some c)
      fresh := Function.update s.fresh (s.tid c) fun p =>
        s.fresh (s.tid c) p || decide ((s.proc p).episode.map Prod.snd = some l) }
  else none

/-- CPU `c` releases lock `l`, which it must hold. -/
def State.unlock (s : State C) (c : C) (l : Lock) : Option (State C) :=
  if s.holder l = some c then
    some { s with holder := Function.update s.holder l none }
  else none

/-- Slot `q` is woken if it is asleep. -/
def Proc.wake (x : Proc) : Proc :=
  if x.state = .sleeping then { x with state := .runnable, woken := true } else x

/-- What a search of the process table finds, or an allocation. -/
inductive Choice where
  | none
  | slot (q : Slot)
  /-- `wait` finds children and no zombie. -/
  | sleep

/-- Process `p` has tested a condition and found that it has to sleep on `ch`. -/
def State.test (s : State C) (p : Slot) (ch : Chan) (lk : Lock) : State C :=
  { s.modProc p fun x => { x with episode := some (ch, lk), woken := false } with
    fresh := fun t q => if q = p then false else s.fresh t q }

/-- An instruction of process `p` on CPU `c`, followed by `k`. -/
def execProc (s : State C) (c : C) (p : Slot) (choice : Choice) (k : List Instr) :
    Instr → Option (State C)
  | .setChan ch => some (s.modProc p fun x => { x with chan := ch, code := k })
  | .setState st => some (s.modProc p fun x => { x with state := st, code := k })
  | .check =>
    if s.holder .ptable = some c ∧ (s.cpu c).ncli = 1 ∧ (s.proc p).state ≠ .running ∧
        (s.cpu c).interrupts = false then
      some (s.modProc p fun x => { x with code := k })
    else none
  | .saveIntena =>
    some (s.modProc p fun x => { x with intena := (s.cpu c).intena, code := k })
  | .save => some (s.modProc p fun x => { x with saved := true, code := k })
  | .load =>
    some ((s.modProc p fun x => { x with code := k }).modCpu c fun x => { x with on := none })
  | .restoreIntena =>
    some ((s.modProc p fun x => { x with code := k }).modCpu c fun x =>
      { x with intena := (s.proc p).intena })
  | .alloc =>
    match choice with
    | .slot q =>
      if (s.proc q).state = .unused then
        some ((s.modProc q fun x => { x with state := .embryo, saved := false }).modProc p fun x =>
          { x with np := some q, code := release .ptable ++ .setup :: k })
      else none
    | _ => some (s.modProc p fun x => { x with code := release .ptable ++ k })
  | .setup =>
    match (s.proc p).np, choice with
    | some q, .slot _ =>
      some ((s.modProc q fun x => { x with code := forkret, np := none, saved := true }).modProc p
        fun x => { x with code := acquire .ptable ++ .ready :: (release .ptable ++ k) })
    | some q, _ =>
      some ((s.modProc q fun x => { x with state := .unused }).modProc p fun x =>
        { x with np := none, code := k })
    | none, _ => none
  | .ready =>
    match (s.proc p).np with
    | some q =>
      some ((s.modProc q fun x => { x with state := .runnable }).modProc p fun x =>
        { x with np := none, code := k })
    | none => none
  | .scan =>
    match choice with
    | .slot q =>
      if (s.proc q).state = .zombie then
        some ((s.modProc q fun x => { x with state := .unused, killed := false }).modProc p fun x =>
          { x with code := release .ptable ++ k })
      else none
    | .sleep =>
      some ((s.test p (.proc p) .ptable).modProc p fun x =>
        { x with code := sleep (.proc p) .ptable ++ .scan :: k })
    | .none => some (s.modProc p fun x => { x with code := release .ptable ++ k })
  | _ => none

/-- `proc && proc->state == RUNNING` on CPU `c`. -/
def State.current (s : State C) (c : C) : Bool :=
  match (s.cpu c).proc with
  | some p => decide ((s.proc p).state = .running)
  | none => false

/-- An instruction of the thread on CPU `c`, followed by `k`. A thread returns from a trap
with no lock held. -/
def exec (s : State C) (c : C) (choice : Choice) (k : List Instr) : Instr → Option (State C)
  | .pushcli => some ((s.setCode c k).modCpu c Cpu.pushcli)
  | .popcli => (s.cpu c).popcli.map fun x => (s.modCpu c fun _ => x).setCode c k
  | .lock l => ((s.lock c l).map fun s => s.setCode c k)
  | .unlock l => ((s.unlock c l).map fun s => s.setCode c k)
  | .wake ch q =>
    some ((if (s.proc q).chan = some ch then s.modProc q Proc.wake else s).setCode c k)
  | .kill q =>
    some ((s.modProc q fun x => { x.wake with killed := true }).setCode c k)
  | .tick => some (s.setCode c (if s.current c then yield ++ k else k))
  | .iret =>
    if (s.cpu c).ncli = 0 then
      some ((s.setCode c k).modCpu c fun x => { x with interrupts := true })
    else none
  | i =>
    match (s.cpu c).on with
    | some p => execProc s c p choice k i
    | none => none

/-- A step of the scheduler of CPU `c`. -/
def schedStep (s : State C) (c : C) : Option (State C) :=
  match (s.cpu c).pc with
  | .top => some (s.modCpu c fun x => { x with interrupts := true, pc := .pushcli })
  | .pushcli => some (s.modCpu c fun x => { x.pushcli with pc := .lock })
  | .lock => (s.lock c .ptable).map fun s => s.modCpu c fun x => { x with pc := .loop }
  | .loop => some (s.modCpu c fun x => { x with pc := .unlock })
  | .uvm p => some (s.modCpu c fun x => { x.pushcli with pc := .uvmPop p })
  | .uvmPop p => (s.cpu c).popcli.map fun x => s.modCpu c fun _ => { x with pc := .run p }
  | .run p =>
    some ((s.modProc p fun x => { x with state := .running }).modCpu c fun x =>
      { x with pc := .save p })
  | .save p => some (s.modCpu c fun x => { x with pc := .load p })
  | .load p =>
    some ((s.modProc p fun x => { x with saved := false }).modCpu c fun x =>
      { x with on := some p, pc := .back })
  | .back => some (s.modCpu c fun x => { x with proc := none, pc := .loop })
  | .unlock => (s.unlock c .ptable).map fun s => s.modCpu c fun x => { x with pc := .popcli }
  | .popcli => (s.cpu c).popcli.map fun x => s.modCpu c fun _ => { x with pc := .top }

/-- A call of a kernel function. -/
inductive Call where
  | acquire (n : ℕ)
  | release (n : ℕ)
  | switchuvm
  /-- `sleep`, after a test of the condition. -/
  | sleep (ch : Chan) (n : ℕ)
  | wakeup (ch : Chan)
  | kill (q : Slot)
  | exit (wakes : List Chan)
  | wait
  | fork

/-- The instructions of a call. -/
def Call.body : Call → List Instr
  | .acquire n => Sched.acquire (.other n)
  | .release n => Sched.release (.other n)
  | .switchuvm => Sched.switchuvm
  | .sleep ch n => Sched.sleep ch (.other n)
  | .wakeup ch => Sched.wakeup ch
  | .kill q => Sched.kill q
  | .exit wakes => Sched.exit wakes
  | .wait => Sched.wait
  | .fork => Sched.fork

/-- What a caller keeps to : `sleep` is called with its lock held, `exit` and `wait` with no
lock held, and init does not exit. -/
def Call.admissible (s : State C) (c : C) (p : Slot) : Call → Bool
  | .sleep _ n => decide (s.holder (.other n) = some c)
  | .exit _ => decide ((s.cpu c).ncli = 0) && decide (p ≠ Ptable.initproc)
  | .wait => decide ((s.cpu c).ncli = 0)
  | _ => true

/-- The state in which process `p` enters a call : before `sleep` it has tested its
condition. -/
def Call.enter (s : State C) (p : Slot) : Call → State C
  | .sleep ch n => s.test p ch (.other n)
  | _ => s

/-- A step. -/
inductive Label (C : Type*) where
  /-- CPU `c` executes the next instruction. -/
  | exec (c : C) (choice : Choice)
  | call (c : C) (f : Call)
  | interrupt (c : C) (lk : Option ℕ) (wakes : List Chan) (timer : Bool)
  | sched (c : C)
  | pick (c : C) (p : Slot)

/-- Take a step, where it can be taken. A process calls a function in a system call, or at
the end of a trap. -/
def step (s : State C) : Label C → Option (State C)
  | .exec c choice =>
    match s.code c with
    | [] => none
    | i :: k => exec s c choice k i
  | .call c f =>
    match (s.cpu c).on with
    | some p =>
      if ((s.proc p).code = [] ∨ (s.proc p).code = [.iret]) ∧ f.admissible s c p = true then
        some ((f.enter s p).modProc p fun x => { x with code := f.body ++ x.code })
      else none
    | none => none
  | .interrupt c lk wakes timer =>
    if (s.cpu c).interrupts = true then
      some ((s.setCode c (trap lk wakes timer ++ s.code c)).modCpu c
        fun x => { x with interrupts := false })
    else none
  | .sched c =>
    if (s.cpu c).on = none ∧ (s.cpu c).code = [] then schedStep s c else none
  | .pick c p =>
    if ((s.cpu c).on = none ∧ (s.cpu c).code = []) ∧
        (s.cpu c).pc = .loop ∧ (s.proc p).state = .runnable then
      some (s.modCpu c fun x => { x with proc := some p, pc := .uvm p })
    else none

end Xv6.Sched
