import Xv6.Lib.RingBuffer
import Xv6.Lib.Transition

/-!
# Console input

`consoleintr` and `consoleread` of `console.c`, called by the keyboard and by any processes. Both
work on `input` with `cons.lock` held, so a step is what is done under the lock at a time : the
characters of one `consoleintr`, and of `consoleread` the part from its start or from the return of
`sleep` to its end or to the next `sleep`. A process that sleeps may wake at any time, and be marked
as killed at any time.

Beside `input` the state has a history : the calls of `consoleread` are numbered, and there are the
bytes committed, the bytes taken out of the buffer with the number of the call, and the results.
-/

namespace Xv6.Console

open RingBuffer (cell)

/-- Size of the input buffer. -/
abbrev INPUT_BUF : ℕ := 128

instance neZero_INPUT_BUF : NeZero INPUT_BUF := ⟨by decide⟩

/-- `input` : the read index is `nread` and the edit index `nwrite`. -/
structure Input extends RingBuffer UInt8 INPUT_BUF where
  w : UInt32

/-- `C(x)`. -/
def ctrl (x : Char) : UInt8 :=
  UInt8.ofNat (x.toNat - '@'.toNat)

def newline : UInt8 := 10

/-- The bytes typed since the last commit. -/
def Input.line (i : Input) : List UInt8 :=
  (List.range (i.nwrite - i.w).toNat).map fun k => i.data (cell (i.w.toNat + k))

/-! ## `consoleintr` -/

/-- The loop of `^U`. Every turn takes a character back, so there are at most as many as the
line has. -/
def killLine : ℕ → Input → Input
  | 0, i => i
  | fuel + 1, i =>
    if i.nwrite ≠ i.w ∧ i.data (cell (i.nwrite - 1).toNat) ≠ newline then
      killLine fuel { i with toRingBuffer := i.toRingBuffer.unpush }
    else
      i

/-- The body of the loop of `consoleintr` for the character `c`, with the bytes it commits. -/
def intrChar (i : Input) (c : UInt8) : Input × List UInt8 :=
  if c = ctrl 'P' then
    (i, [])
  else if c = ctrl 'U' then
    (killLine (i.nwrite - i.w).toNat i, [])
  else if c = ctrl 'H' ∨ c = 127 then
    if i.nwrite ≠ i.w then
      ({ i with toRingBuffer := i.toRingBuffer.unpush }, [])
    else
      (i, [])
  else if c ≠ 0 ∧ i.nwrite - i.nread < UInt32.ofNat INPUT_BUF then
    let c := if c = 13 then newline else c
    let i := { i with toRingBuffer := i.toRingBuffer.push c }
    if c = newline ∨ c = ctrl 'D' ∨ i.nwrite = i.nread + UInt32.ofNat INPUT_BUF then
      ({ i with w := i.nwrite }, i.line)
    else
      (i, [])
  else
    (i, [])

/-- `consoleintr` for the characters that `getc` returns, with the bytes it commits. -/
def consoleintr : List UInt8 → Input → Input × List UInt8
  | [], i => (i, [])
  | c :: cs, i =>
    let r := intrChar i c
    let r' := consoleintr cs r.1
    (r'.1, r.2 ++ r'.2)

/-! ## `consoleread` -/

/-- Where the part of `consoleread` under the lock ends. -/
inductive Outcome where
  /-- At `sleep`, with `n` bytes to go and `got` read. -/
  | sleep (n : ℕ) (got : List UInt8)
  | killed
  /-- With the bytes at `dst`. -/
  | returned (got : List UInt8)

/-- The loop of `consoleread` with `n` bytes to go and `got` read, with the bytes it takes out of
the buffer. -/
def readLoop (killed : Bool) (target : ℕ) : ℕ → Input → List UInt8 →
    Input × List UInt8 × Outcome
  | 0, i, got => (i, [], .returned got)
  | n + 1, i, got =>
    if i.nread = i.w then
      (i, [], if killed then .killed else .sleep (n + 1) got)
    else
      let c := i.toRingBuffer.head
      let j := { i with toRingBuffer := i.toRingBuffer.pop }
      if c = ctrl 'D' then
        if n + 1 < target then
          -- Save `^D` for next time.
          ({ j with nread := j.nread - 1 }, [], .returned got)
        else
          (j, [c], .returned got)
      else if c = newline then
        (j, [c], .returned (got ++ [c]))
      else
        let r := readLoop killed target n j (got ++ [c])
        (r.1, c :: r.2.1, r.2.2)

/-! ## The system -/

/-- A call of `consoleread` that sleeps. -/
structure Call where
  id : ℕ
  target : ℕ
  /-- Number of bytes to go. -/
  n : ℕ
  got : List UInt8

/-- A call of `consoleread` that returned. -/
structure Return where
  id : ℕ
  target : ℕ
  /-- The bytes returned; `none` is the result `-1`. -/
  result : Option (List UInt8)

variable (P : Type)

/-- The state of the console and of the processes `P`. -/
structure State where
  input : Input
  killed : P → Bool
  /-- The call in which a process sleeps. -/
  call : P → Option Call
  calls : ℕ
  committed : List UInt8
  /-- The bytes taken out of the buffer, with the numbers of the calls. -/
  taken : List (ℕ × UInt8)
  returns : List Return

/-- What happens next. -/
inductive Event where
  /-- `consoleintr`, with the characters `getc` returns. -/
  | intr (cs : List UInt8)
  | read (p : P) (n : ℤ)
  /-- `sleep` returns. -/
  | wake (p : P)
  | kill (p : P)

variable {P} [DecidableEq P]

/-- Process `p` goes on with a call. -/
def State.resume (s : State P) (p : P) (c : Call) : State P :=
  let r := readLoop (s.killed p) c.target c.n s.input c.got
  { s with
    input := r.1
    taken := s.taken ++ r.2.1.map fun b => (c.id, b)
    call := Function.update s.call p <| match r.2.2 with
      | .sleep n got => some { c with n := n, got := got }
      | .killed | .returned _ => none
    returns := s.returns ++ match r.2.2 with
      | .sleep _ _ => []
      | .killed => [⟨c.id, c.target, none⟩]
      | .returned got => [⟨c.id, c.target, some got⟩] }

/-- The step of an event. A length that is not positive is as good as zero. -/
def step (s : State P) : Event P → Option (State P)
  | .intr cs =>
    let r := consoleintr cs s.input
    some { s with input := r.1, committed := s.committed ++ r.2 }
  | .read p n =>
    match s.call p with
    | none => some ({ s with calls := s.calls + 1 }.resume p ⟨s.calls, n.toNat, n.toNat, []⟩)
    | some _ => none
  | .wake p =>
    match s.call p with
    | none => none
    | some c => some (s.resume p c)
  | .kill p => some { s with killed := Function.update s.killed p true }

/-- The state after boot. -/
def init (P : Type) : State P where
  input := ⟨⟨fun _ => 0, 0, 0⟩, 0⟩
  killed _ := false
  call _ := none
  calls := 0
  committed := []
  taken := []
  returns := []

end Xv6.Console
