import Xv6.Lib.Transition
import Xv6.Param

/-!
# The process table

`fork`, `exit`, `wait` and `kill` of `proc.c`, run by any processes. A step is a section
under `ptable.lock`, or one of the writes `fork` makes to the new process without the
lock. `fork` is four steps, since other processes run while it copies memory : `allocproc`
takes a slot, then memory runs out and the slot is given back, or the parent is set, and
last the child is made runnable. Processes also sleep, are woken, give up the CPU and fault.

Beside the fields of `struct proc` the state has a history : each process has a number of
its own and the number of its creator; the processes that exited are listed, and those `wait`
returned.
-/

open Function

namespace Xv6.Ptable

abbrev Slot := Fin NPROC

/-- `enum procstate`. -/
inductive ProcState where
  | unused
  | embryo
  | sleeping
  | runnable
  | running
  | zombie
  deriving DecidableEq

/-- What a process sleeps on. -/
inductive Chan where
  /-- The process itself, in `wait`. -/
  | proc (p : Slot)
  | other (n : ℕ)
  deriving DecidableEq

/-- Where a process is in the kernel. -/
inductive Pc where
  /-- In none of the calls below. -/
  | user
  /-- In `fork`, with slot `np` taken. -/
  | forking (np : Slot)
  /-- In `fork`, with the parent of `np` set. -/
  | forked (np : Slot)
  /-- In the loop of `wait`. -/
  | waiting
  deriving DecidableEq

/-- `struct proc`, with its history. -/
structure Proc where
  state : ProcState
  pid : Int32
  parent : Option Slot
  chan : Option Chan
  killed : Bool
  pc : Pc
  uid : ℕ
  /-- Number of the process that created it. -/
  creator : ℕ

/-- A process `wait` returned. -/
structure Reap where
  /-- Number of the process that called `wait`. -/
  waiter : ℕ
  uid : ℕ
  creator : ℕ
  pid : Int32

/-- The process table, with the history. -/
structure State where
  proc : Slot → Proc
  nextpid : Int32
  /-- Number of processes made so far. -/
  births : ℕ
  exited : List ℕ
  reaped : List Reap

def initproc : Slot := 0

/-- A slot never used. -/
def Proc.empty : Proc :=
  ⟨.unused, 0, none, none, false, .user, 0, 0⟩

/-- The state after `userinit`. -/
def start : State where
  proc := update (fun _ => Proc.empty) initproc
    { Proc.empty with state := .runnable, pid := 1 }
  nextpid := 2
  births := 1
  exited := []
  reaped := []

def State.modify (s : State) (p : Slot) (f : Proc → Proc) : State :=
  { s with proc := update s.proc p (f (s.proc p)) }

def State.goto (s : State) (p : Slot) (pc : Pc) : State :=
  s.modify p fun q => { q with pc := pc }

/-! ## The calls -/

/-- The loop of `allocproc`. -/
def unusedSlot (s : State) : Option Slot :=
  (List.finRange NPROC).find? fun p => (s.proc p).state = .unused

/-- `allocproc` takes slot `np` for a child of process `p`. -/
def alloc (s : State) (p np : Slot) : State :=
  { s.modify np fun q =>
      { q with state := .embryo, pid := s.nextpid, uid := s.births, creator := (s.proc p).uid } with
    nextpid := s.nextpid + 1
    births := s.births + 1 }

/-- `wakeup1`. A channel of `none` is the null pointer. -/
def wakeup1 (s : State) (c : Option Chan) : State :=
  { s with proc := fun p =>
      if (s.proc p).state = .sleeping ∧ (s.proc p).chan = c then
        { s.proc p with state := .runnable }
      else s.proc p }

/-- The body of the loop of `exit` that passes children to init. -/
def passChild (p : Slot) (s : State) (q : Slot) : State :=
  if (s.proc q).parent = some p then
    let s := s.modify q fun r => { r with parent := some initproc }
    if (s.proc q).state = .zombie then wakeup1 s (some (.proc initproc)) else s
  else s

/-- `exit` of process `p`, from where it takes `ptable.lock`. -/
def exit (s : State) (p : Slot) : State :=
  let s := wakeup1 s ((s.proc p).parent.map .proc)
  let s := (List.finRange NPROC).foldl (passChild p) s
  { s.modify p fun q => { q with state := .zombie } with
    exited := (s.proc p).uid :: s.exited }

/-- What the scan of `wait` finds. -/
inductive Scan where
  | zombie (q : Slot)
  /-- No reason to wait : the result is `-1`. -/
  | fail
  | alive
  deriving DecidableEq

/-- The scan of `wait` by process `p`. -/
def scan (s : State) (p : Slot) : Scan :=
  match (List.finRange NPROC).find? fun q =>
      (s.proc q).parent = some p ∧ (s.proc q).state = .zombie with
  | some q => .zombie q
  | none =>
    if (∀ q, (s.proc q).parent ≠ some p) ∨ (s.proc p).killed = true then .fail else .alive

/-- `wait` of process `p` returns its child `q`. -/
def reap (s : State) (p q : Slot) : State :=
  { s.modify q fun r =>
      { r with state := .unused, pid := 0, parent := none, killed := false } with
    reaped := ⟨(s.proc p).uid, (s.proc q).uid, (s.proc q).creator, (s.proc q).pid⟩ :: s.reaped }

/-- A turn of the loop of `wait`. -/
def wait (s : State) (p : Slot) : State :=
  match scan s p with
  | .zombie q => (reap s p q).goto p .user
  | .fail => s.goto p .user
  | .alive => s.modify p fun q =>
      { q with state := .sleeping, chan := some (.proc p), pc := .waiting }

/-- The slot the loop of `kill` stops at. -/
def killTarget (s : State) (pid : Int32) : Option Slot :=
  (List.finRange NPROC).find? fun p => (s.proc p).pid = pid

/-- `kill`; its result is `0` when there is a target. -/
def kill (s : State) (pid : Int32) : State :=
  match killTarget s pid with
  | none => s
  | some p => s.modify p fun q =>
      { q with
        killed := true
        state := if q.state = .sleeping then .runnable else q.state }

/-! ## Steps -/

/-- A step. -/
inductive Label where
  /-- The scheduler picks process `p`, which clears its channel if it comes from `sleep`. -/
  | dispatch (p : Slot)
  | yield (p : Slot)
  | fault (p : Slot)
  /-- Process `p` sleeps on a channel other than those of `wait`. -/
  | sleep (p : Slot) (n : ℕ)
  /-- `wakeup` of such a channel. -/
  | wakeup (n : ℕ)
  /-- Process `p` calls `fork`, which calls `allocproc`. -/
  | fork (p : Slot)
  /-- There is no memory for the child of process `p`. -/
  | forkFail (p : Slot)
  /-- `fork` has copied the memory and sets the parent. -/
  | forkParent (p : Slot)
  /-- `fork` makes the child runnable. -/
  | forkDone (p : Slot)
  | exit (p : Slot)
  /-- Process `p` calls `wait`, or goes on with it. -/
  | wait (p : Slot)
  | kill (p : Slot) (pid : Int32)
  deriving DecidableEq

/-- Process `p` runs outside the calls. -/
def State.inUser (s : State) (p : Slot) : Prop :=
  (s.proc p).state = .running ∧ (s.proc p).pc = .user

instance (s : State) (p : Slot) : Decidable (s.inUser p) :=
  inferInstanceAs (Decidable (_ ∧ _))

def step (s : State) : Label → Option State
  | .dispatch p =>
    if (s.proc p).state = .runnable then
      some (s.modify p fun q => { q with state := .running, chan := none })
    else none
  | .yield p =>
    if (s.proc p).state = .running then
      some (s.modify p fun q => { q with state := .runnable })
    else none
  | .fault p =>
    if s.inUser p then some (s.modify p fun q => { q with killed := true }) else none
  | .sleep p n =>
    if s.inUser p then
      some (s.modify p fun q => { q with state := .sleeping, chan := some (.other n) })
    else none
  | .wakeup n => some (wakeup1 s (some (.other n)))
  | .fork p =>
    if s.inUser p then
      match unusedSlot s with
      | none => some s
      | some np => some ((alloc s p np).goto p (.forking np))
    else none
  | .forkFail p =>
    match (s.proc p).state, (s.proc p).pc with
    | .running, .forking np =>
      some ((s.modify np fun q => { q with state := .unused }).goto p .user)
    | _, _ => none
  | .forkParent p =>
    match (s.proc p).state, (s.proc p).pc with
    | .running, .forking np =>
      some ((s.modify np fun q => { q with parent := some p }).goto p (.forked np))
    | _, _ => none
  | .forkDone p =>
    match (s.proc p).state, (s.proc p).pc with
    | .running, .forked np =>
      some ((s.modify np fun q => { q with state := .runnable }).goto p .user)
    | _, _ => none
  | .exit p =>
    if s.inUser p ∧ p ≠ initproc then some (exit s p) else none
  | .wait p =>
    if (s.proc p).state = .running ∧ ((s.proc p).pc = .user ∨ (s.proc p).pc = .waiting) then
      some (wait s p)
    else none
  | .kill p pid => if s.inUser p then some (kill s pid) else none

/-! ## Equations -/

theorem start_init : start.proc initproc = { Proc.empty with state := .runnable, pid := 1 } := rfl

theorem start_of_ne {p : Slot} (h : p ≠ initproc) : start.proc p = Proc.empty := by
  simp only [start, update_of_ne h]

@[simp] theorem modify_self (s : State) (p : Slot) (f : Proc → Proc) :
    (s.modify p f).proc p = f (s.proc p) :=
  update_self _ _ _

theorem modify_of_ne {p q : Slot} (s : State) (f : Proc → Proc) (h : q ≠ p) :
    (s.modify p f).proc q = s.proc q :=
  update_of_ne h _ _

theorem modify_apply (s : State) (p q : Slot) (f : Proc → Proc) :
    (s.modify p f).proc q = if q = p then f (s.proc q) else s.proc q := by
  by_cases h : q = p
  · subst h
    simp
  · rw [modify_of_ne s f h, if_neg h]

theorem wakeup1_proc (s : State) (c : Option Chan) (q : Slot) : (wakeup1 s c).proc q =
    { s.proc q with
      state := if (s.proc q).state = .sleeping ∧ (s.proc q).chan = c then .runnable
        else (s.proc q).state } := by
  simp only [wakeup1]
  split_ifs <;> rfl

theorem passChild_proc (p : Slot) (s : State) (a q : Slot) : (passChild p s a).proc q =
    { s.proc q with
      parent := if q = a ∧ (s.proc a).parent = some p then some initproc else (s.proc q).parent
      state := if ((s.proc q).state = .sleeping ∧ (s.proc q).chan = some (.proc initproc)) ∧
          (s.proc a).parent = some p ∧ (s.proc a).state = .zombie
        then .runnable else (s.proc q).state } := by
  unfold passChild
  by_cases ha : (s.proc a).parent = some p
  · by_cases hz : (s.proc a).state = .zombie
    · simp only [ha, modify_self, hz, if_true, wakeup1_proc, modify_apply]
      by_cases hq : q = a <;> simp [hq, hz]
    · simp only [ha, modify_self, hz, if_true, if_false, modify_apply]
      by_cases hq : q = a <;> simp [hq]
  · simp [ha]

theorem passChild_history (p : Slot) (s : State) (a : Slot) :
    passChild p s a = { s with proc := (passChild p s a).proc } := by
  unfold passChild
  dsimp only
  split_ifs <;> rfl

/-- The table after the loop of `exit` over the slots in `l` : the children of `p` among
them have a new parent, and init is awake if one of them is a zombie. -/
theorem foldl_passChild {p : Slot} (hp : p ≠ initproc) : ∀ (l : List Slot) (s : State),
    l.foldl (passChild p) s = { s with proc := fun q =>
      { s.proc q with
        parent := if q ∈ l ∧ (s.proc q).parent = some p then some initproc else (s.proc q).parent
        state := if ((s.proc q).state = .sleeping ∧ (s.proc q).chan = some (.proc initproc)) ∧
            ∃ r ∈ l, (s.proc r).parent = some p ∧ (s.proc r).state = .zombie
          then .runnable else (s.proc q).state } }
  | [], s => by simp
  | a :: l, s => by
    have hz : ∀ r, ((passChild p s a).proc r).state = .zombie ↔ (s.proc r).state = .zombie := by
      intro r
      rw [passChild_proc]
      dsimp only
      split_ifs with h
      · simp [h.1.1]
      · rfl
    rw [List.foldl_cons, foldl_passChild hp l, passChild_history]
    congr 1
    funext q
    -- a zombie later in the list keeps its parent until it is reached
    have hex : (∃ r ∈ l, ((passChild p s a).proc r).parent = some p ∧
        ((passChild p s a).proc r).state = .zombie) ∨
        (s.proc a).parent = some p ∧ (s.proc a).state = .zombie ↔
        ∃ r ∈ a :: l, (s.proc r).parent = some p ∧ (s.proc r).state = .zombie := by
      simp only [hz]
      simp only [passChild_proc]
      grind
    simp only [← hex]
    simp only [passChild_proc]
    grind

/-- The table after `exit` of process `p`. -/
theorem exit_proc {p : Slot} (hp : p ≠ initproc) (s : State) (q : Slot) : (exit s p).proc q =
      { s.proc q with
        parent := if (s.proc q).parent = some p then some initproc else (s.proc q).parent
        state := if q = p then .zombie
          else if (s.proc q).state = .sleeping ∧ ((s.proc q).chan = (s.proc p).parent.map .proc ∨
            (s.proc q).chan = some (.proc initproc) ∧
              ∃ r, (s.proc r).parent = some p ∧ (s.proc r).state = .zombie)
          then .runnable else (s.proc q).state } := by
  have hz : ∀ r, ((wakeup1 s ((s.proc p).parent.map .proc)).proc r).state = .zombie ↔
      (s.proc r).state = .zombie := by
    intro r
    rw [wakeup1_proc]
    dsimp only
    split_ifs with h
    · simp [h.1]
    · rfl
  unfold exit
  simp only [foldl_passChild hp, modify_apply, List.mem_finRange, true_and, hz]
  simp only [wakeup1_proc]
  by_cases hqp : q = p
  · simp [hqp]
  · grind

theorem exit_history {p : Slot} (hp : p ≠ initproc) (s : State) :
    exit s p = { s with
      proc := (exit s p).proc
      exited := (s.proc p).uid :: s.exited } := by
  unfold exit
  simp only [foldl_passChild hp, State.modify, wakeup1_proc]
  rfl

end Xv6.Ptable
