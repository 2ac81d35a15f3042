import Xv6.Lib.Cstring
import Xv6.Lib.Wp
import Xv6.Xvsh

/-!
# The line buffer of `xvsh`

`main`, `process_one_cmd`, `exit_check`, `process_normal` and `strtok` of `xvsh.c` over the bytes
they work on : the line is a string in a buffer of `size` bytes, which `strtok` cuts up in place,
and `tok` is an array of pointers into the buffer, in what `malloc` returned. An index outside of
the buffer or the array stops the run with that index.

This is one process, and what the kernel answers is an input : what `read` returns and, for each
command, what `malloc`, `fork` and `exec` do. A child in which `exec` failed goes on in `main`, so
each process of the shell is such a run from its last `memset` on.
-/

namespace Xv6.XvshBuf

open Xvsh (MAXLINE SPACE AMP Word exitWord)

/-! ## Memory -/

/-- Why a run stops. -/
inductive Stop where
  /-- The index `i` is used on the buffer, and there is no such byte. -/
  | buf (i : ℤ)
  /-- The index `i` is used on `tok`, and there is no such entry. -/
  | tok (i : ℕ)
  | exit
  | exec
  deriving DecidableEq

/-- What `printf` is given after the format. -/
inductive Arg where
  | none
  | int (x : ℤ)
  | str (p : Option ℕ)
  deriving DecidableEq

/-- A call. -/
inductive Call where
  | printf (fmt : String) (arg : Arg)
  /-- With the first entry of `tok`. -/
  | exit_check (path : Option ℕ)
  | fork (x : ℤ)
  | wait
  /-- With the first entry of `tok`. -/
  | exec (path : Option ℕ)
  deriving DecidableEq

/-- The memory of the shell. A pointer is an offset into the buffer, and `none` is null. -/
structure Mem where
  buf : ℕ → UInt8
  size : ℕ
  /-- The static variable of `strtok`. -/
  last : Option ℕ
  tok : ℕ → Option ℕ
  /-- The number of entries there is room for in `tok`. -/
  cap : ℕ
  calls : List Call

/-- A piece of the shell. -/
abbrev M := EStateM Stop Mem

/-- `buf[i]`. -/
def load (i : ℤ) : M UInt8 := do
  let m ← get
  if 0 ≤ i ∧ i < m.size then pure (m.buf i.toNat) else throw (.buf i)

/-- `buf[i] = c`. -/
def store (i : ℤ) (c : UInt8) : M Unit := do
  let m ← get
  if 0 ≤ i ∧ i < m.size then set { m with buf := Function.update m.buf i.toNat c }
  else throw (.buf i)

/-- `tok[i]`. -/
def getTok (i : ℕ) : M (Option ℕ) := do
  let m ← get
  if i < m.cap then pure (m.tok i) else throw (.tok i)

/-- `tok[i] = p`. -/
def setTok (i : ℕ) (p : Option ℕ) : M Unit := do
  let m ← get
  if i < m.cap then set { m with tok := Function.update m.tok i p } else throw (.tok i)

/-- `last = p` in `strtok`. -/
def setLast (p : Option ℕ) : M Unit :=
  modify fun m => { m with last := p }

/-- Make a call. -/
def call (c : Call) : M Unit :=
  modify fun m => { m with calls := m.calls ++ [c] }

/-! ## Strings -/

/-- The loop of `strlen`, with `k` bytes of the buffer from `n` on. -/
def strlenLoop : ℕ → ℕ → M ℕ
  | 0, n => throw (.buf n)
  | k + 1, n => do
    let c ← load n
    if c = 0 then pure n else strlenLoop k (n + 1)

/-- `strlen(buf)`. -/
def strlen : M ℕ := do
  let m ← get
  strlenLoop m.size 0

/-- Whether `strcmp(p, w)` is zero. -/
def strcmpEq : ℕ → Word → M Bool
  | p, [] => do
    let c ← load p
    pure (decide (c = 0))
  | p, q :: w => do
    let c ← load p
    if c = q then strcmpEq (p + 1) w else pure false

/-- The loop at `cont` in `strtok`, with `k` bytes of the buffer from `s` on : the character after
the delimiters, and where it is. -/
def skip (delim : List UInt8) : ℕ → ℕ → M (UInt8 × ℕ)
  | 0, s => throw (.buf s)
  | k + 1, s => do
    let c ← load s
    if c ∈ delim then skip delim k (s + 1) else pure (c, s)

/-- The second loop of `strtok`, with `k` bytes of the buffer from `s` on : the value for `last`. -/
def scan (delim : List UInt8) : ℕ → ℕ → M (Option ℕ)
  | 0, s => throw (.buf s)
  | k + 1, s => do
    let c ← load s
    if c = 0 then pure none
    else if c ∈ delim then do
      store s 0
      pure (some (s + 1))
    else scan delim k (s + 1)

def strtok (s : Option ℕ) (delim : List UInt8) : M (Option ℕ) := do
  let m ← get
  match s <|> m.last with
  | none => pure none
  | some s => do
    let (c, tok) ← skip delim (m.size - s) s
    if c = 0 then do
      setLast none
      pure none
    else do
      let last ← scan delim (m.size - (tok + 1)) (tok + 1)
      setLast last
      pure (some tok)

/-! ## Commands -/

/-- What the kernel does for one command. -/
structure Env where
  /-- Whether `malloc` finds memory. -/
  malloc : Bool
  /-- Whether `strcmp` finds `exit` at the null pointer, where the program's code is. -/
  null : Bool
  fork : ℤ
  /-- Whether `exec` runs the program. -/
  exec : Bool

/-- The loop that counts spaces, at `i`. -/
def countLoop : ℕ → ℕ → M ℕ
  | 0, num_tok => pure num_tok
  | i + 1, num_tok => do
    let c ← load ((i + 1 : ℕ) : ℤ)
    countLoop i (if c = SPACE then num_tok + 1 else num_tok)

/-- The value of `num_tok`. Below zero the loop reads `buf[i]` at once, and counts away from
zero. -/
def countTok : ℤ → M ℕ
  | .ofNat i => countLoop i 1
  | .negSucc i => throw (.buf (.negSucc i))

/-- The loop that fills `tok`, at `i`, with room for `k` more entries. -/
def tokLoop : ℕ → ℕ → ℕ → M ℕ
  | 0, i, _ => throw (.tok i)
  | k + 1, i, bg => do
    let t ← strtok none [SPACE]
    setTok i t
    match t with
    | none => pure bg
    | some p => do
      let c ← load p
      if c = AMP then do
        setTok i none
        tokLoop k (i + 1) i
      else tokLoop k (i + 1) bg

/-- `process_one_cmd`, up to the end of the scan for tokens : the value of `bg`. -/
def scanTokens (e : Env) : M ℕ := do
  let n ← strlen
  let num_tok ← countTok ((n : ℤ) - 1)
  if e.malloc then do
    modify fun m => { m with cap := num_tok + 1 }
    let t ← strtok (some 0) [SPACE]
    setTok 0 t
    tokLoop num_tok 1 0
  else do
    call (.printf "malloc failed\n" .none)
    throw .exit

def exit_check (e : Env) : M Bool := do
  let t ← getTok 0
  call (.exit_check t)
  match t with
  | none => pure e.null
  | some p => strcmpEq p exitWord

/-- The call that announces a background command. -/
def background (pid : ℤ) : Call :=
  .printf "[pid %d] runs as a background process \n" (.int pid)

def process_normal (e : Env) (bg : ℕ) : M Unit := do
  call (.fork e.fork)
  if 0 < e.fork ∧ bg < 1 then call .wait
  else if e.fork = 0 then do
    let t ← getTok 0
    call (.exec t)
    if e.exec then throw .exec
    else call (.printf "Cannot run this command %s \n" (.str t))
  else if 1 < bg then call (background e.fork)
  else pure ()

def process_one_cmd (e : Env) : M Unit := do
  let bg ← scanTokens e
  let b ← exit_check e
  if b then do
    call .wait
    throw .exit
  else process_normal e bg

/-! ## The loop of `main` -/

/-- One turn of the loop : what `read` returns, with `none` for an error, and what the kernel does
for the command. -/
structure Input where
  bytes : Option (List UInt8)
  short : ∀ l ∈ bytes, l.length ≤ MAXLINE
  env : Env

/-- What `read` returns. -/
def Input.n (r : Input) : ℤ :=
  match r.bytes with
  | none => -1
  | some l => l.length

/-- What `read` stores. -/
def Input.fill (r : Input) (buf : ℕ → UInt8) (i : ℕ) : UInt8 :=
  match r.bytes with
  | none => buf i
  | some l => l.getD i (buf i)

/-- `printf(1, SH_PROMPT)`. -/
def prompt : M Unit :=
  call (.printf "xvsh> " .none)

/-- One turn of the loop. -/
def turn (r : Input) : M Unit := do
  modify fun m => { m with buf := r.fill m.buf }
  if r.n = 0 then throw .exit
  else if r.n = 1 then prompt
  else do
    let n ← strlen
    store ((n : ℤ) - 1) 0
    process_one_cmd r.env
    prompt
    modify fun m => { m with buf := fun i => if i < m.size then 0 else m.buf i }

/-- `main`, which waits in `read` after the last of the inputs. -/
def main (rs : List Input) : M Unit := do
  prompt
  forM rs turn

/-- The memory when `main` starts, with the buffer zeroed. -/
def start : Mem where
  buf _ := 0
  size := MAXLINE
  last := none
  tok _ := none
  cap := 0
  calls := []

end Xv6.XvshBuf
