import Xv6.Lib.Cstring
import Xv6.Sh

/-!
# The parser of `sh` over its line buffer

The parser of `sh.c` with the pointers it keeps : `gettoken` sets `q` and `eq` to the ends of a
token, the nodes of the tree hold them, and `nulterminate` writes a null byte at the end of each
word when the tree is complete. Parsing reads the buffer from the cursor `*ps` to the end `es`;
`argv` and `eargv` are arrays of `MAXARGS` slots, and an index outside of them stops the run.

The loops and the recursion take the fuel of `Sh`.
-/

open Function

namespace Xv6.ShBuf

open Sh (Str BAR LPAR RPAR SEMI AMP GT whitespace plain MAXARGS)

/-- `'a'`, which `gettoken` returns for a word. -/
abbrev WORD : UInt8 := 97
/-- `'+'`, which `gettoken` returns for `>>`. -/
abbrev PLUS : UInt8 := 43

/-- Why a run stops. -/
inductive Stop where
  /-- As the parser does. -/
  | sh (e : Sh.Err)
  /-- The index `i` is used on `argv` and `eargv`, and there is no such slot. -/
  | argv (i : ℕ)
  /-- The null pointer in slot `i` of `eargv` is written through. -/
  | null (i : ℕ)
  deriving DecidableEq

/-! ## Commands -/

/-- The slots of `struct execcmd`. -/
structure Exec where
  argv : ℕ → Option ℕ
  eargv : ℕ → Option ℕ

def execcmd : Exec where
  argv _ := none
  eargv _ := none

/-- The fields of `struct redircmd`, other than the command. -/
structure Redir where
  file : ℕ
  efile : ℕ
  mode : ℕ
  fd : ℕ

/-- `struct cmd`. -/
inductive Node where
  | exec (x : Exec)
  | redir (cmd : Node) (r : Redir)
  | pipe (left right : Node)
  | list (left right : Node)
  | back (cmd : Node)

/-- A command with redirections around it, the first one innermost. -/
def wrap (cmd : Node) (rs : List Redir) : Node :=
  rs.foldl .redir cmd

/-! ## The parser -/

/-- Programs over the cursor. -/
abbrev P := EStateM Stop ℕ

section

variable (mem : ℕ → UInt8) (es : ℕ)

/-- The loop that skips whitespace, with `k` characters before `es`. -/
def skipLoop : ℕ → ℕ → ℕ
  | 0, s => s
  | k + 1, s => if whitespace.contains (mem s) then skipLoop k (s + 1) else s

def skip (s : ℕ) : ℕ :=
  skipLoop mem (es - s) s

/-- The loop over the characters of a word, with `k` characters before `es`. -/
def wordLoop : ℕ → ℕ → ℕ
  | 0, s => s
  | k + 1, s => if plain (mem s) then wordLoop k (s + 1) else s

/-- The `switch` of `gettoken` : the value that is returned, and the end of the token. -/
def token (s : ℕ) : UInt8 × ℕ :=
  if mem s = 0 then (mem s, s)
  else if mem s ∈ [BAR, LPAR, RPAR, SEMI, AMP, Sh.LT] then (mem s, s + 1)
  else if mem s = GT then
    if mem (s + 1) = GT then (PLUS, s + 2) else (mem s, s + 1)
  else (WORD, wordLoop mem (es - s) s)

/-- What `gettoken` returns, and the pointers that it sets. -/
structure Token where
  ret : UInt8
  q : ℕ
  eq : ℕ

def gettoken : P Token := do
  let q := skip mem es (← get)
  let t := token mem es q
  set (skip mem es t.2)
  return ⟨t.1, q, t.2⟩

def peek (toks : Str) : P Bool := do
  modify (skip mem es)
  let s ← get
  return mem s ≠ 0 && toks.contains (mem s)

/-- The redirection of an operator and a file. -/
def redircmd (q eq : ℕ) (tok : UInt8) : Option Redir :=
  if tok = Sh.LT then some ⟨q, eq, Sh.O_RDONLY, 0⟩
  else if tok = GT then some ⟨q, eq, Sh.O_WRONLY ||| Sh.O_CREATE, 1⟩
  else if tok = PLUS then some ⟨q, eq, Sh.O_WRONLY ||| Sh.O_CREATE, 1⟩
  else none

/-- The loop of `parseredirs`. -/
def redirLoop : ℕ → P (List Redir)
  | 0 => throw (.sh .fuel)
  | n + 1 => do
    if ← peek mem es [Sh.LT, GT] then
      let tok ← gettoken mem es
      let w ← gettoken mem es
      if w.ret = WORD then
        return (redircmd w.q w.eq tok.ret).toList ++ (← redirLoop n)
      else
        throw (.sh (.panic "missing file for redirection"))
    else
      return []

/-- `parseredirs`, as the redirections it puts around a command. -/
def parseredirs : P (List Redir) := do
  redirLoop mem es (es - (← get) + 1)

/-- `cmd->argv[i] = q; cmd->eargv[i] = eq`. -/
def setArg (x : Exec) (i : ℕ) (q eq : Option ℕ) : P Exec :=
  if i < MAXARGS then
    pure ⟨update x.argv i q, update x.eargv i eq⟩
  else throw (.argv i)

/-- The loop of `parseexec` over the arguments : the value of `argc`, the node that is filled in and
the redirections around it. -/
def argLoop : ℕ → ℕ → Exec → P (ℕ × Exec × List Redir)
  | 0, _, _ => throw (.sh .fuel)
  | n + 1, argc, x => do
    if ← peek mem es [BAR, RPAR, AMP, SEMI] then
      return (argc, x, [])
    else
      let t ← gettoken mem es
      if t.ret = 0 then
        return (argc, x, [])
      else if t.ret = WORD then
        let x ← setArg x argc (some t.q) (some t.eq)
        if MAXARGS ≤ argc + 1 then
          throw (.sh (.panic "too many args"))
        else
          let rs ← parseredirs mem es
          let r ← argLoop n (argc + 1) x
          return (r.1, r.2.1, rs ++ r.2.2)
      else
        throw (.sh (.panic "syntax"))

/-- The arguments of a simple command, with the redirections among them. -/
def parseargs : P (Exec × List Redir) := do
  let r ← argLoop mem es (es - (← get) + 1) 0 execcmd
  let x ← setArg r.2.1 r.1 none none
  return (x, r.2.2)

/-- The loop of `parseline` over `'&'`. -/
def backLoop : ℕ → Node → P Node
  | 0, _ => throw (.sh .fuel)
  | n + 1, cmd => do
    if ← peek mem es [AMP] then
      let _ ← gettoken mem es
      backLoop n (.back cmd)
    else
      return cmd

/-- The `'&'` after a pipeline. -/
def parsebacks (cmd : Node) : P Node := do
  backLoop mem es (es - (← get) + 1) cmd

mutual

def parseline : ℕ → P Node
  | 0 => throw (.sh .fuel)
  | n + 1 => do
    let cmd ← parsepipe n
    let cmd ← parsebacks mem es cmd
    if ← peek mem es [SEMI] then
      let _ ← gettoken mem es
      return .list cmd (← parseline n)
    else
      return cmd

def parsepipe : ℕ → P Node
  | 0 => throw (.sh .fuel)
  | n + 1 => do
    let cmd ← parseexec n
    if ← peek mem es [BAR] then
      let _ ← gettoken mem es
      return .pipe cmd (← parsepipe n)
    else
      return cmd

def parseexec : ℕ → P Node
  | 0 => throw (.sh .fuel)
  | n + 1 => do
    if ← peek mem es [LPAR] then
      parseblock n
    else
      let rs ← parseredirs mem es
      let r ← parseargs mem es
      return wrap (.exec r.1) (rs ++ r.2)

def parseblock : ℕ → P Node
  | 0 => throw (.sh .fuel)
  | n + 1 => do
    if ← peek mem es [LPAR] then
      let _ ← gettoken mem es
      let cmd ← parseline n
      if ← peek mem es [RPAR] then
        let _ ← gettoken mem es
        return wrap cmd (← parseredirs mem es)
      else
        throw (.sh (.panic "syntax - missing )"))
    else
      throw (.sh (.panic "parseblock"))

end

/-- `parsecmd`, up to `nulterminate`. -/
def parseall : P Node := do
  let cmd ← parseline mem es (4 * (es - (← get)) + 4)
  let _ ← peek mem es []
  if (← get) = es then return cmd else throw (.sh (.panic "syntax"))

end

/-! ## Null bytes -/

/-- Programs over the memory. -/
abbrev M := EStateM Stop (ℕ → UInt8)

/-- `*p = 0`. -/
def zero (p : ℕ) : M Unit :=
  modify fun mem => update mem p 0

/-- The loop of `nulterminate` over the arguments, with `k` slots from `i` on. -/
def argvLoop (x : Exec) : ℕ → ℕ → M Unit
  | 0, i => throw (.argv i)
  | k + 1, i => do
    if (x.argv i).isSome then
      match x.eargv i with
      | some p =>
        zero p
        argvLoop x k (i + 1)
      | none => throw (.null i)
    else
      return ()

def nulterminate : Node → M Unit
  | .exec x => argvLoop x MAXARGS 0
  | .redir cmd r => do
    nulterminate cmd
    zero r.efile
  | .pipe left right => do
    nulterminate left
    nulterminate right
  | .list left right => do
    nulterminate left
    nulterminate right
  | .back cmd => nulterminate cmd

/-- `parsecmd` of the string at `s`, in `size` bytes of memory. -/
def parsecmd (s size : ℕ) : M Node := do
  let mem ← get
  match parseall mem (s + (Cstring.readStr mem size s).length) s with
  | .ok cmd _ =>
    nulterminate cmd
    return cmd
  | .error e _ => throw e

end Xv6.ShBuf
