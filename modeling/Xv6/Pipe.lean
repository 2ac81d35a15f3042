import Xv6.Lib.RingBuffer
import Xv6.Ptable

/-!
# Pipes

`pipewrite`, `piperead` and `pipeclose` of `pipe.c` on one pipe, run by any processes, with
`sleep` and `wakeup` of `proc.c`. A step is a turn of a loop under `p->lock`, or one
operation on `p->lock` or on `ptable.lock`. A process that sleeps gives up the CPU with
`ptable.lock` held, which the scheduler releases, and gets it back with the CPU. `kill` may mark
and wake a process at any time `ptable.lock` is free.

The functions are called in any order; when the page of the pipe is freed the system stops.

Beside the fields of `struct pipe` and `struct proc` the state has a history : the calls of
`pipewrite` are numbered, the bytes stored are listed with the number of their call, and
the results of the calls in the order in which they release `p->lock`.
-/

namespace Xv6

/-- Capacity of a pipe. -/
abbrev PIPESIZE : ℕ := 512

/-- `struct pipe`, without its lock. -/
structure Pipe extends RingBuffer UInt8 PIPESIZE where
  readopen : Bool
  writeopen : Bool

namespace Pipe

open Ptable (ProcState)

/-- The test for a full pipe. -/
def full (p : Pipe) : Prop :=
  p.nwrite = p.nread + 512

instance (p : Pipe) : Decidable p.full :=
  inferInstanceAs (Decidable (_ = _))

/-- The addresses processes sleep on. -/
inductive Chan where
  | nread
  | nwrite
  deriving DecidableEq

/-- A call of `pipewrite`. -/
structure Write where
  addr : ℕ → UInt8
  /-- Number of bytes to write. -/
  n : ℤ
  /-- Number of bytes written. -/
  i : ℕ
  id : ℕ

/-- The calls of `wakeup`. -/
inductive Waker where
  /-- `pipewrite` finds the pipe full. -/
  | full (w : Write)
  /-- `pipewrite` has written its bytes. -/
  | written (w : Write)
  /-- `piperead` of `n` bytes has read `got`. -/
  | read (n : ℤ) (got : List UInt8)
  /-- `pipeclose` has closed an end. -/
  | close (writable : Bool)

/-- What it wakes. -/
def Waker.chan : Waker → Chan
  | .full _ | .written _ | .close true => .nread
  | .read _ _ | .close false => .nwrite

/-- Where a process is in `wakeup`. -/
inductive WakeStage where
  /-- At `acquire(&ptable.lock)`. -/
  | lock
  /-- At `wakeup1`. -/
  | scan
  /-- At `release(&ptable.lock)`. -/
  | unlock

/-- The calls of `sleep`. -/
inductive Sleeper where
  | write (w : Write)
  | read (n : ℤ)

/-- What it sleeps on. -/
def Sleeper.chan : Sleeper → Chan
  | .write _ => .nwrite
  | .read _ => .nread

/-- Where a process is in `sleep`. -/
inductive SleepStage where
  /-- At `acquire(&ptable.lock)`. -/
  | lock
  /-- At `release(lk)`. -/
  | unlock
  /-- Before it sets its channel and state and calls `sched`. -/
  | mark
  /-- In the scheduler, which is to release `ptable.lock`. -/
  | switched
  /-- Not on a CPU. -/
  | asleep
  /-- Back from `sched`, before it clears its channel and releases `ptable.lock`. -/
  | resume
  /-- At `acquire(lk)`. -/
  | relock

/-- Where a process is. -/
inductive Pc where
  /-- Outside the functions of the pipe. -/
  | user
  /-- At `acquire(&p->lock)` in `pipewrite`. -/
  | writeEnter (w : Write)
  /-- At the test of the `for` loop. -/
  | writeFor (w : Write)
  /-- At the test of the `while` loop. -/
  | writeWhile (w : Write)
  /-- At `acquire(&p->lock)` in `piperead`. -/
  | readEnter (n : ℤ)
  /-- At the test of the `while` loop. -/
  | readWhile (n : ℤ)
  /-- At the test of the `for` loop, with the bytes read so far. -/
  | readFor (n : ℤ) (got : List UInt8)
  /-- At `acquire(&p->lock)` in `pipeclose`. -/
  | closeEnter (writable : Bool)
  /-- At the assignment that closes the end. -/
  | closing (writable : Bool)
  | wake (c : Waker) (k : WakeStage)
  /-- Back from `wakeup`. -/
  | woken (c : Waker)
  | sleep (c : Sleeper) (k : SleepStage)
  | free

/-- A process. -/
structure Proc where
  pc : Pc
  state : ProcState
  chan : Option Chan
  killed : Bool

/-- The result of a call. -/
inductive Result where
  /-- `pipewrite` returns `ret`. -/
  | write (w : Write) (ret : ℤ)
  /-- `piperead` of `n` bytes reads `got` and returns `ret`. -/
  | read (n : ℤ) (got : List UInt8) (ret : ℤ)

/-- The bytes a call has read. -/
def Result.bytes : Result → List UInt8
  | .write _ _ => []
  | .read _ got _ => got

/-- The pipe and the processes, with the history. -/
structure State (P : Type*) where
  pipe : Pipe
  freed : Bool
  /-- Holder of `p->lock`. -/
  lock : Option P
  /-- Holder of `ptable.lock`. -/
  ptable : Option P
  proc : P → Proc
  calls : ℕ
  /-- The bytes stored, with the number of the call. -/
  stored : List (ℕ × UInt8)
  results : List Result

/-- The state after `pipealloc`, where the page has any content. -/
def start (P : Type*) (data : Fin PIPESIZE → UInt8) : State P where
  pipe := ⟨⟨data, 0, 0⟩, true, true⟩
  freed := false
  lock := none
  ptable := none
  proc _ := ⟨.user, .running, none, false⟩
  calls := 0
  stored := []
  results := []

variable {P : Type*} [DecidableEq P]

/-! ## Steps -/

def State.modify (s : State P) (p : P) (f : Proc → Proc) : State P :=
  { s with proc := Function.update s.proc p (f (s.proc p)) }

def State.goto (s : State P) (p : P) (pc : Pc) : State P :=
  s.modify p fun q => { q with pc := pc }

/-- `acquire(&p->lock)`. -/
def acquire (s : State P) (p : P) (pc : Pc) : Option (State P) :=
  if s.lock = none then some ({ s with lock := some p }.goto p pc) else none

/-- `release(&p->lock)`. -/
def release (s : State P) (p : P) (pc : Pc) : State P :=
  { s with lock := none }.goto p pc

/-- `acquire(&ptable.lock)`. -/
def acquirePtable (s : State P) (p : P) (pc : Pc) : Option (State P) :=
  if s.ptable = none then some ({ s with ptable := some p }.goto p pc) else none

/-- `release(&ptable.lock)`. -/
def releasePtable (s : State P) (p : P) (pc : Pc) : State P :=
  { s with ptable := none }.goto p pc

/-- Process `p` releases `p->lock` and returns. -/
def ret (s : State P) (p : P) (r : Result) : State P :=
  { release s p .user with results := s.results ++ [r] }

def wakeup1 (s : State P) (c : Chan) : State P :=
  { s with proc := fun q =>
      if (s.proc q).state = .sleeping ∧ (s.proc q).chan = some c then
        { s.proc q with state := .runnable }
      else s.proc q }

/-- The store of `pipewrite`. -/
def store (s : State P) (w : Write) : State P :=
  { s with
    pipe := { s.pipe with toRingBuffer := s.pipe.push (w.addr w.i) }
    stored := s.stored ++ [(w.id, w.addr w.i)] }

/-- The load of `piperead`. -/
def load (s : State P) : State P :=
  { s with pipe := { s.pipe with toRingBuffer := s.pipe.pop } }

/-- `pipeclose` closes an end. -/
def closeEnd (s : State P) (writable : Bool) : State P :=
  { s with pipe :=
      if writable then { s.pipe with writeopen := false } else { s.pipe with readopen := false } }

/-- `wakeup` of process `p`. -/
def wakeTurn (s : State P) (p : P) (c : Waker) : WakeStage → Option (State P)
  | .lock => acquirePtable s p (.wake c .scan)
  | .scan => some ((wakeup1 s c.chan).goto p (.wake c .unlock))
  | .unlock => some (releasePtable s p (.woken c))

/-- What follows `wakeup`. -/
def wokenTurn (s : State P) (p : P) : Waker → State P
  | .full w => s.goto p (.sleep (.write w) .lock)
  | .written w => ret s p (.write w w.n)
  | .read n got => ret s p (.read n got got.length)
  | .close _ =>
    release s p (if s.pipe.readopen = false ∧ s.pipe.writeopen = false then .free else .user)

/-- `sleep` of process `p`. -/
def sleepTurn (s : State P) (p : P) (c : Sleeper) : SleepStage → Option (State P)
  | .lock => acquirePtable s p (.sleep c .unlock)
  | .unlock => some (release s p (.sleep c .mark))
  | .mark => some (s.modify p fun q =>
      { q with chan := some c.chan, state := .sleeping, pc := .sleep c .switched })
  | .switched => some (releasePtable s p (.sleep c .asleep))
  | .asleep => none
  | .resume =>
    some (releasePtable (s.modify p fun q => { q with chan := none }) p (.sleep c .relock))
  | .relock =>
    acquire s p <| match c with
      | .write w => .writeWhile w
      | .read n => .readWhile n

/-- The next step of process `p`. -/
def turn (s : State P) (p : P) : Option (State P) :=
  match (s.proc p).pc with
  | .user => none
  | .writeEnter w => acquire s p (.writeFor w)
  | .writeFor w =>
    some (s.goto p (if (w.i : ℤ) < w.n then .writeWhile w else .wake (.written w) .lock))
  | .writeWhile w =>
    if s.pipe.full then
      if s.pipe.readopen = false ∨ (s.proc p).killed = true then
        some (ret s p (.write w (-1)))
      else some (s.goto p (.wake (.full w) .lock))
    else some ((store s w).goto p (.writeFor { w with i := w.i + 1 }))
  | .readEnter n => acquire s p (.readWhile n)
  | .readWhile n =>
    if s.pipe.nread = s.pipe.nwrite ∧ s.pipe.writeopen = true then
      if (s.proc p).killed = true then some (ret s p (.read n [] (-1)))
      else some (s.goto p (.sleep (.read n) .lock))
    else some (s.goto p (.readFor n []))
  | .readFor n got =>
    if (got.length : ℤ) < n ∧ s.pipe.nread ≠ s.pipe.nwrite then
      some ((load s).goto p (.readFor n (got ++ [s.pipe.head])))
    else some (s.goto p (.wake (.read n got) .lock))
  | .closeEnter writable => acquire s p (.closing writable)
  | .closing writable => some ((closeEnd s writable).goto p (.wake (.close writable) .lock))
  | .wake c k => wakeTurn s p c k
  | .woken c => some (wokenTurn s p c)
  | .sleep c k => sleepTurn s p c k
  | .free => some { s.goto p .user with freed := true }

/-- A step. -/
inductive Label (P : Type*) where
  | write (p : P) (addr : ℕ → UInt8) (n : ℤ)
  | read (p : P) (n : ℤ)
  | close (p : P) (writable : Bool)
  | turn (p : P)
  /-- The scheduler picks process `p`, which comes from `sleep`. -/
  | dispatch (p : P)
  | kill (p : P)

def step (s : State P) (a : Label P) : Option (State P) :=
  if s.freed then none
  else
    match a with
    | .write p addr n =>
      match (s.proc p).pc with
      | .user =>
        some ({ s with calls := s.calls + 1 }.goto p (.writeEnter ⟨addr, n, 0, s.calls⟩))
      | _ => none
    | .read p n =>
      match (s.proc p).pc with
      | .user => some (s.goto p (.readEnter n))
      | _ => none
    | .close p writable =>
      match (s.proc p).pc with
      | .user => some (s.goto p (.closeEnter writable))
      | _ => none
    | .turn p => turn s p
    | .dispatch p =>
      match (s.proc p).pc with
      | .sleep c .asleep =>
        if s.ptable = none ∧ (s.proc p).state = .runnable then
          some ({ s with ptable := some p }.modify p fun q =>
            { q with state := .running, pc := .sleep c .resume })
        else none
      | _ => none
    | .kill p =>
      if s.ptable = none then
        some (s.modify p fun q =>
          { q with
            killed := true
            state := if q.state = .sleeping then .runnable else q.state })
      else none

end Pipe

end Xv6
