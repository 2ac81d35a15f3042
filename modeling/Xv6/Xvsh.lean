import Xv6.Lib.Transition

/-!
# The shell `xvsh`

`main`, `process_one_cmd` and `process_normal` of `xvsh.c`, run by any number of processes :
`fork` copies the control state, so a child starts inside `process_normal`, and goes on from
there if `exec` returns. The kernel is seen through its calls : `fork` makes a process or
fails, `exec` replaces the program or fails, `exit` leaves a zombie and passes children to
init, `wait` returns any zombie child, or fails if there are no children. Programs other than the
shell fork, wait and exit when they like.

Processes are numbered in the order they are made; one that `wait` returned stays in the table as
reaped.
-/

namespace Xv6.Xvsh

/-! ## Input -/

/-- Size of the line buffer. -/
abbrev MAXLINE : ℕ := 256

abbrev SPACE : UInt8 := 32
abbrev AMP : UInt8 := 38
abbrev NEWLINE : UInt8 := 10

/-- A line of input without its newline : `read` gets all of it, and it fits the buffer with
a null byte after it. -/
structure Line where
  chars : List UInt8
  plain : ∀ c ∈ chars, c ≠ 0 ∧ c ≠ NEWLINE
  short : chars.length + 1 < MAXLINE

/-- A token. -/
abbrev Word := List UInt8

/-- `strtok(s, " ")` : the token and what is left, which is null at the end of the string. -/
def strtok (s : List UInt8) : Option (Word × Option (List UInt8)) :=
  match s.dropWhile (· = SPACE) with
  | [] => none
  | c :: s =>
    let last := match (c :: s).dropWhile (· ≠ SPACE) with
      | [] => none
      | _ :: r => some r
    some ((c :: s).takeWhile (· ≠ SPACE), last)

/-- The calls of `strtok` of `process_one_cmd`, until it returns null. -/
def strtoks : ℕ → Option (List UInt8) → List Word
  | 0, _ => []
  | _ + 1, none => []
  | fuel + 1, some s =>
    match strtok s with
    | none => []
    | some (w, last) => w :: strtoks fuel last

/-- A command line : the array `tok`, and `bg`. -/
structure Cmd where
  tok : List (Option Word)
  bg : ℕ

/-- Whether a token starts with `&`. -/
def isAmp (w : Word) : Bool :=
  w.head? = some AMP

/-- `process_one_cmd`, up to the check for `exit`. A token that starts with `&` is no argument, and
its index is `bg`, except for the first. -/
def parse (line : Line) : Cmd :=
  match strtoks (line.chars.length + 1) (some line.chars) with
  | [] => ⟨[none], 0⟩
  | w :: ws =>
    ⟨some w :: ws.map fun w => if isAmp w then none else some w,
      (ws.zipIdx 1).foldl (fun bg wi => if isAmp wi.1 then wi.2 else bg) 0⟩

/-- `"exit"`. -/
def exitWord : Word :=
  [101, 120, 105, 116]

def exit_check (c : Cmd) : Bool :=
  c.tok.head? = some (some exitWord)

/-! ## State -/

/-- Where a process is in `xvsh.c`. -/
inductive Pc where
  /-- In `main`, at the prompt. -/
  | prompt
  /-- In `main`, at `read`. -/
  | read
  /-- In `process_one_cmd`, at `malloc`. -/
  | malloc (line : Line)
  /-- In `process_normal`, at `fork`. -/
  | fork (c : Cmd)
  /-- In `process_normal`, at `wait` for a foreground command whose child is `child`. -/
  | wait (child : ℕ)
  /-- In `process_normal`, at `exec` in the child. -/
  | exec (c : Cmd)
  /-- In `process_normal`, in the child after `exec` returned. -/
  | failed
  /-- In `process_one_cmd`, after `process_normal`, which waited for `child`. -/
  | back (child : Option ℕ)
  /-- In `process_one_cmd`, at `wait` before `exit`. -/
  | exitWait
  /-- At `exit` in `process_one_cmd`, after `wait`. -/
  | exitCmd
  /-- At another `exit` : at the end of the input, or when `malloc` failed. -/
  | quit

/-- What a process executes. -/
inductive Code where
  | xvsh (pc : Pc)
  | program

/-- What has become of a process. -/
inductive Status where
  | alive
  | zombie
  | reaped
  deriving DecidableEq

/-- A process. -/
structure Proc where
  parent : Option ℕ
  creator : ℕ
  status : Status
  code : Code

/-- The processes, by their numbers, and how many there have been. -/
structure State where
  proc : ℕ → Option Proc
  births : ℕ

/-- The first process. -/
abbrev init : ℕ := 0
/-- The shell that is started. -/
abbrev sh : ℕ := 1

/-- The shell, started by init. -/
def start : State where
  proc p := if p = init then some ⟨none, init, .alive, .program⟩
    else if p = sh then some ⟨some init, init, .alive, .xvsh .prompt⟩ else none
  births := 2

def State.modify (s : State) (p : ℕ) (f : Proc → Proc) : State :=
  { s with proc := Function.update s.proc p ((s.proc p).map f) }

def State.goto (s : State) (p : ℕ) (pc : Pc) : State :=
  s.modify p fun x => { x with code := .xvsh pc }

/-- Where process `p` is in the shell, if it is alive and runs the shell. -/
def State.pc (s : State) (p : ℕ) : Option Pc :=
  match s.proc p with
  | some ⟨_, _, .alive, .xvsh pc⟩ => some pc
  | _ => none

/-- Process `p` is alive and runs another program. -/
def State.inProgram (s : State) (p : ℕ) : Bool :=
  match s.proc p with
  | some ⟨_, _, .alive, .program⟩ => true
  | _ => false

/-! ## Calls of the kernel -/

/-- `fork` by process `p`, with the child at `code`. -/
def State.fork (s : State) (p : ℕ) (code : Code) : State where
  proc := Function.update s.proc s.births (some ⟨some p, p, .alive, code⟩)
  births := s.births + 1

/-- `exit` of process `p`. -/
def State.exit (s : State) (p : ℕ) : State :=
  { s with proc := fun q => (s.proc q).map fun x =>
      { x with
        parent := if x.parent = some p then some init else x.parent
        status := if q = p then .zombie else x.status } }

/-- Process `q` is a zombie child of process `p`. -/
def State.zombieOf (s : State) (p q : ℕ) : Bool :=
  match s.proc q with
  | some x => x.parent = some p ∧ x.status = .zombie
  | none => false

/-- `wait` returns `q`. -/
def State.reap (s : State) (q : ℕ) : State :=
  s.modify q fun x => { x with parent := none, status := .reaped }

/-- Process `p` has no children. -/
def State.childless (s : State) (p : ℕ) : Bool :=
  (List.range s.births).all fun q => (s.proc q).all fun x => x.parent ≠ some p

/-! ## Steps -/

/-- A step of process `p`. -/
inductive Label where
  | print (p : ℕ)
  | read (p : ℕ) (line : Line)
  | eof (p : ℕ)
  /-- `malloc` and the tokens of the line. -/
  | malloc (p : ℕ) (ok : Bool)
  | fork (p : ℕ) (ok : Bool)
  | exec (p : ℕ) (ok : Bool)
  | wait (p q : ℕ)
  | waitFail (p : ℕ)
  /-- `free`, and the return to `main`. -/
  | free (p : ℕ)
  | exit (p : ℕ)

/-- `process_normal` in the parent, after `fork` returned `x` or failed. -/
def afterFork (c : Cmd) (x : Option ℕ) : Pc :=
  match x with
  | some q => if c.bg < 1 then .wait q else .back none
  | none => .back none

/-- `process_one_cmd`, after the tokens. -/
def afterParse (c : Cmd) : Pc :=
  if exit_check c then .exitWait else .fork c

/-- `main`, after `read` returned a line. -/
def afterRead (line : Line) : Pc :=
  if line.chars.length + 1 = 1 then .prompt else .malloc line

/-- Where the shell goes on when `wait` returned. -/
def afterWait : Pc → Option Pc
  | .wait q => some (.back (some q))
  | .exitWait => some .exitCmd
  | _ => none

/-- Process `p`, which is in `wait`, goes on. -/
def State.waited (s : State) (p : ℕ) : Option State :=
  if s.inProgram p then some s else ((s.pc p).bind afterWait).map (s.goto p)

def step (s : State) : Label → Option State
  | .print p =>
    match s.pc p with
    | some .prompt => some (s.goto p .read)
    | some .failed => some (s.goto p (.back none))
    | _ => none
  | .read p line =>
    match s.pc p with
    | some .read => some (s.goto p (afterRead line))
    | _ => none
  | .eof p =>
    match s.pc p with
    | some .read => some (s.goto p .quit)
    | _ => none
  | .malloc p ok =>
    match s.pc p with
    | some (.malloc line) => some (s.goto p (if ok then afterParse (parse line) else .quit))
    | _ => none
  | .fork p ok =>
    match s.pc p with
    | some (.fork c) =>
      if ok then some ((s.fork p (.xvsh (.exec c))).goto p (afterFork c (some s.births)))
      else some (s.goto p (afterFork c none))
    | _ => if s.inProgram p ∧ ok then some (s.fork p .program) else none
  | .exec p ok =>
    match s.pc p with
    | some (.exec _) =>
      some (if ok then s.modify p fun x => { x with code := .program } else s.goto p .failed)
    | _ => none
  | .wait p q => if s.zombieOf p q then (s.reap q).waited p else none
  | .waitFail p => if s.childless p then s.waited p else none
  | .free p =>
    match s.pc p with
    | some (.back _) => some (s.goto p .prompt)
    | _ => none
  | .exit p =>
    match s.pc p with
    | some .exitCmd => some (s.exit p)
    | some .quit => some (s.exit p)
    | _ => if s.inProgram p ∧ p ≠ init then some (s.exit p) else none

end Xv6.Xvsh
