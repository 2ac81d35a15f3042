import Xv6.Lib.Wp

/-!
# The parser of the shell `sh`

`gettoken`, `peek` and the recursive descent `parsecmd`, `parseline`, `parsepipe`,
`parseexec`, `parseblock`, `parseredirs` of `sh.c`. The state is the text from the cursor
`*ps` to the end `es`; a call of `panic` stops with its message. The text of a word is cut
out where `gettoken` sets `q` and `eq`.

A loop gets one unit of fuel more than the characters that are left, the recursion four units for
each character and four more; running out is an error of its own.
-/

namespace Xv6.Sh

/-! ## Characters -/

/-- A string of C without its null byte. -/
abbrev Str := List UInt8

abbrev BAR : UInt8 := 124
abbrev LPAR : UInt8 := 40
abbrev RPAR : UInt8 := 41
abbrev SEMI : UInt8 := 59
abbrev AMP : UInt8 := 38
abbrev LT : UInt8 := 60
abbrev GT : UInt8 := 62

/-- `" \t\r\n\v"`. -/
def whitespace : Str := [32, 9, 13, 10, 11]

/-- `"<|>&;()"`. -/
def symbols : Str := [LT, BAR, GT, AMP, SEMI, LPAR, RPAR]

/-- Size of `argv`. -/
abbrev MAXARGS : ℕ := 10

abbrev O_RDONLY : ℕ := 0x000
abbrev O_WRONLY : ℕ := 0x001
abbrev O_CREATE : ℕ := 0x200

/-! ## Tokens -/

/-- What `gettoken` returns, other than the end of the text : `'+'` is `gtgt` and `'a'` is
`word`, with its characters. -/
inductive Tok where
  | bar
  | lpar
  | rpar
  | semi
  | amp
  | lt
  | gt
  | gtgt
  | word (w : Str)
  deriving DecidableEq, Repr

def skip (s : Str) : Str :=
  s.dropWhile (whitespace.contains ·)

/-- A character of a word. -/
def plain (c : UInt8) : Bool :=
  !whitespace.contains c && !symbols.contains c

/-- The token at the start of a text without whitespace before it, and the text after. -/
def token : Str → Option (Tok × Str)
  | [] => none
  | c :: s =>
    if c = BAR then some (.bar, s)
    else if c = LPAR then some (.lpar, s)
    else if c = RPAR then some (.rpar, s)
    else if c = SEMI then some (.semi, s)
    else if c = AMP then some (.amp, s)
    else if c = LT then some (.lt, s)
    else if c = GT then
      match s with
      | [] => some (.gt, s)
      | d :: r => if d = GT then some (.gtgt, r) else some (.gt, s)
    else some (.word ((c :: s).takeWhile plain), (c :: s).dropWhile plain)

/-! ## Commands -/

/-- A redirection : the file, the mode it is opened with and the descriptor it takes. -/
structure Redir where
  file : Str
  mode : ℕ
  fd : ℕ
  deriving DecidableEq, Repr

/-- `struct cmd`. -/
inductive Cmd where
  | exec (argv : List Str)
  | redir (cmd : Cmd) (r : Redir)
  | pipe (left right : Cmd)
  | list (left right : Cmd)
  | back (cmd : Cmd)
  deriving DecidableEq, Repr

/-- A command with redirections around it, the first one innermost. -/
def wrap (cmd : Cmd) (rs : List Redir) : Cmd :=
  rs.foldl .redir cmd

/-! ## The parser -/

/-- How the parser stops. -/
inductive Err where
  | panic (msg : String)
  | fuel
  deriving DecidableEq, Repr

/-- Programs over the text that is left. -/
abbrev P := EStateM Err Str

/-- `gettoken`; the end of the text is `none`. -/
def gettoken : P (Option Tok) := do
  match token (skip (← get)) with
  | none =>
    set ([] : Str)
    return none
  | some (t, r) =>
    set (skip r)
    return some t

def peek (toks : Str) : P Bool := do
  modify skip
  match ← get with
  | [] => return false
  | c :: _ => return toks.contains c

/-- The redirection of an operator and a file. Other tokens make none : the `switch` has no
default. -/
def redircmd (file : Str) : Tok → Option Redir
  | .lt => some ⟨file, O_RDONLY, 0⟩
  | .gt => some ⟨file, O_WRONLY ||| O_CREATE, 1⟩
  | .gtgt => some ⟨file, O_WRONLY ||| O_CREATE, 1⟩
  | _ => none

/-- The loop of `parseredirs`. -/
def redirLoop : ℕ → P (List Redir)
  | 0 => throw .fuel
  | n + 1 => do
    if ← peek [LT, GT] then
      let tok ← gettoken
      match ← gettoken with
      | some (.word w) => return (tok.bind (redircmd w)).toList ++ (← redirLoop n)
      | _ => throw (.panic "missing file for redirection")
    else
      return []

/-- `parseredirs`, as the redirections it puts around a command. -/
def parseredirs : P (List Redir) := do
  redirLoop ((← get).length + 1)

/-- The loop of `parseexec` over the arguments. The node that is filled in is inside the
redirections read so far, so the words and the redirections are collected apart. -/
def argLoop : ℕ → ℕ → P (List Str × List Redir)
  | 0, _ => throw .fuel
  | n + 1, argc => do
    if ← peek [BAR, RPAR, AMP, SEMI] then
      return ([], [])
    else
      match ← gettoken with
      | none => return ([], [])
      | some (.word w) =>
        if MAXARGS ≤ argc + 1 then
          throw (.panic "too many args")
        else
          let rs ← parseredirs
          let r ← argLoop n (argc + 1)
          return (w :: r.1, rs ++ r.2)
      | some _ => throw (.panic "syntax")

/-- The arguments of a simple command, with the redirections among them. -/
def parseargs : P (List Str × List Redir) := do
  argLoop ((← get).length + 1) 0

/-- The loop of `parseline` over `'&'`. -/
def backLoop : ℕ → Cmd → P Cmd
  | 0, _ => throw .fuel
  | n + 1, cmd => do
    if ← peek [AMP] then
      let _ ← gettoken
      backLoop n (.back cmd)
    else
      return cmd

/-- The `'&'` after a pipeline. -/
def parsebacks (cmd : Cmd) : P Cmd := do
  backLoop ((← get).length + 1) cmd

mutual

def parseline : ℕ → P Cmd
  | 0 => throw .fuel
  | n + 1 => do
    let cmd ← parsepipe n
    let cmd ← parsebacks cmd
    if ← peek [SEMI] then
      let _ ← gettoken
      return .list cmd (← parseline n)
    else
      return cmd

def parsepipe : ℕ → P Cmd
  | 0 => throw .fuel
  | n + 1 => do
    let cmd ← parseexec n
    if ← peek [BAR] then
      let _ ← gettoken
      return .pipe cmd (← parsepipe n)
    else
      return cmd

def parseexec : ℕ → P Cmd
  | 0 => throw .fuel
  | n + 1 => do
    if ← peek [LPAR] then
      parseblock n
    else
      let rs ← parseredirs
      let r ← parseargs
      return wrap (.exec r.1) (rs ++ r.2)

def parseblock : ℕ → P Cmd
  | 0 => throw .fuel
  | n + 1 => do
    if ← peek [LPAR] then
      let _ ← gettoken
      let cmd ← parseline n
      if ← peek [RPAR] then
        let _ ← gettoken
        return wrap cmd (← parseredirs)
      else
        throw (.panic "syntax - missing )")
    else
      throw (.panic "parseblock")

end

/-- The body of `parsecmd`. -/
def parseall : P Cmd := do
  let cmd ← parseline (4 * (← get).length + 4)
  let _ ← peek []
  match ← get with
  | [] => return cmd
  | _ :: _ => throw (.panic "syntax")

def parsecmd (s : Str) : Except Err Cmd :=
  match parseall s with
  | .ok cmd _ => .ok cmd
  | .error e _ => .error e

end Xv6.Sh
