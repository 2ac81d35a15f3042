import Xv6.Lib.Linked
import Xv6.Lib.Transition
import Xv6.Param

/-!
# The disk drivers

`iderw` of `memide.c`, which serves a request at once from memory, and the queued driver of
`ide.c` : `iderw` appends the buffer to `idequeue` and sleeps, `ideintr` takes the head of
the queue when the controller has finished its command and starts the next one.

What a process or the handler does between taking `idelock` and giving it up, by `release` or by
`sleep`, is one step; the controller works at any time, since it does not take the lock. Two fields
of the state are a record of the run that no step reads : `reqs` has the buffer and its content for
each request put in the queue, in this order, and `complete` counts the requests that `ideintr` has
finished.
-/

open Function

namespace Xv6.Ide

/-! ## Buffers -/

/-- `struct buf`, without its links. -/
structure Buf where
  busy : Bool
  valid : Bool
  dirty : Bool
  dev : ℕ
  blockno : ℕ
  data : Block
  deriving DecidableEq

/-- `(b->flags & (B_VALID|B_DIRTY)) == B_VALID`. -/
def Buf.synced (b : Buf) : Bool :=
  b.valid && !b.dirty

/-! ## `memide.c` -/

/-- `iderw` of `memide.c`; `none` where it panics. -/
def memiderw (disksize : ℕ) (mem : ℕ → Block) (b : Buf) : Option ((ℕ → Block) × Buf) :=
  if ¬b.busy then none              -- iderw: buf not busy
  else if b.synced then none        -- iderw: nothing to do
  else if b.dev ≠ 1 then none       -- iderw: request not for disk 1
  else if disksize ≤ b.blockno then none   -- iderw: block out of range
  else if b.dirty then
    some (update mem b.blockno b.data, { b with dirty := false, valid := true })
  else
    some (mem, { b with data := mem b.blockno, valid := true })

/-- The memory after a list of requests. -/
def memidedisk (disksize : ℕ) : (ℕ → Block) → List Buf → Option (ℕ → Block)
  | mem, [] => some mem
  | mem, b :: bs => (memiderw disksize mem b).bind fun r => memidedisk disksize r.1 bs

/-! ## The controller -/

/-- Bytes of a sector. -/
abbrev SECTOR_SIZE : ℕ := 512

/-- A command : the registers `idestart` writes, and the data of a write. -/
structure Cmd where
  /-- `0x1f2` : number of sectors. -/
  count : ℕ
  /-- `0x1f3` : bits 0 to 7 of the sector. -/
  lba0 : ℕ
  /-- `0x1f4` : bits 8 to 15. -/
  lba1 : ℕ
  /-- `0x1f5` : bits 16 to 23. -/
  lba2 : ℕ
  /-- `0x1f6` : the drive, and bits 24 to 27. -/
  drive : ℕ
  /-- The data of `IDE_CMD_WRITE`, none for `IDE_CMD_READ`. -/
  write : Option Block
  deriving DecidableEq

/-- The sector a command is for. -/
def Cmd.sector (c : Cmd) : ℕ :=
  c.lba0 + c.lba1 * 2 ^ 8 + c.lba2 * 2 ^ 16 + (c.drive &&& 0x0f) * 2 ^ 24

/-- The drive a command is for. -/
def Cmd.unit (c : Cmd) : ℕ :=
  (c.drive >>> 4) &&& 1

/-- What the controller is doing. After a command it holds what it read, and its interrupt
is pending. -/
inductive Ctl where
  | idle
  | busy (c : Cmd)
  | done (c : Cmd) (latch : Block)
  deriving DecidableEq

/-! ## The queued driver -/

/-- Where a process is in `iderw` of a buffer. The number is that of its request. -/
inductive Pc (β : Type) where
  /-- Not in `iderw`. -/
  | out
  /-- Past the checks, at `acquire`. -/
  | enter (b : β)
  | asleep (b : β) (k : ℕ)
  /-- In `sleep`, and runnable. -/
  | runnable (b : β) (k : ℕ)
  deriving DecidableEq

/-- The buffer a process has given to `iderw`. -/
def Pc.buf {β : Type} : Pc β → Option β
  | .out => none
  | .enter b => some b
  | .asleep b _ => some b
  | .runnable b _ => some b

/-- The driver, the controller, the drives and the processes. -/
structure State (P β : Type) where
  buf : β → Buf
  /-- `idequeue`, and `qnext` of a buffer. -/
  link : Option β → Option β
  havedisk1 : Bool
  ctl : Ctl
  disk : ℕ → ℕ → Block
  pc : P → Pc β
  reqs : List (β × Buf)
  complete : ℕ

/-- Steps. -/
inductive Label (P β : Type) where
  /-- A buffer that is not in `iderw` gets other content. -/
  | change (b : β) (c : Buf)
  /-- `iderw` up to `acquire`. -/
  | call (p : P) (b : β)
  /-- `iderw` from `acquire` to `sleep`. -/
  | enqueue (p : P)
  | finish
  | intr
  /-- A sleeping process is made runnable, as `kill` does. -/
  | kill (p : P)
  /-- `iderw` after `sleep`, to its end or to the next `sleep`. -/
  | resume (p : P)

variable {P β : Type} [DecidableEq P] [Fintype P] [DecidableEq β] [Fintype β]

/-- The command for a buffer. -/
def command (b : Buf) : Cmd :=
  let sector_per_block := BSIZE / SECTOR_SIZE
  let sector := b.blockno * sector_per_block
  { count := sector_per_block
    lba0 := sector &&& 0xff
    lba1 := (sector >>> 8) &&& 0xff
    lba2 := (sector >>> 16) &&& 0xff
    drive := 0xe0 ||| ((b.dev &&& 1) <<< 4) ||| ((sector >>> 24) &&& 0x0f)
    write := if b.dirty then some b.data else none }

/-- `idestart`; none where it panics, or would spin in `idewait`. -/
def idestart (s : State P β) (b : β) : Option (State P β) :=
  if FSSIZE ≤ (s.buf b).blockno then none
  else
    match s.ctl with
    | .busy _ => none
    | _ => some { s with ctl := .busy (command (s.buf b)) }

/-- The loop of `iderw` to the end of the queue. -/
def queueEnd (link : Option β → Option β) : ℕ → Option β → Option (Option β)
  | 0, _ => none
  | n + 1, pp =>
    match link pp with
    | none => some pp
    | some b => queueEnd link n (some b)

/-- `while((b->flags & (B_VALID|B_DIRTY)) != B_VALID) sleep(b, &idelock)`, up to `sleep` or
the end of `iderw`. -/
def waitLoop (s : State P β) (p : P) (b : β) (k : ℕ) : State P β :=
  { s with pc := update s.pc p (if (s.buf b).synced then .out else .asleep b k) }

/-- `iderw` from `acquire` to `sleep`. -/
def enqueue (s : State P β) (p : P) (b : β) : Option (State P β) := do
  let link := update s.link (some b) none
  let pp ← queueEnd link (Fintype.card β + 1) none
  let s := { s with link := update link pp (some b), reqs := s.reqs ++ [(b, s.buf b)] }
  let s ← if s.link none = some b then idestart s b else some s
  return waitLoop s p b (s.reqs.length - 1)

/-- `wakeup(b)`. -/
def wakeup (s : State P β) (b : β) : State P β :=
  { s with
    pc := fun p =>
      match s.pc p with
      | .asleep c k => if c = b then .runnable c k else .asleep c k
      | pc => pc }

/-- `ideintr`, with what the controller holds. -/
def ideintr (s : State P β) (latch : Block) : Option (State P β) :=
  let s := { s with ctl := .idle }
  match s.link none with
  | none => some s
  | some b =>
    let c := s.buf b
    let c := if c.dirty then c else { c with data := latch }
    let s := { s with
      link := update s.link none (s.link (some b))
      buf := update s.buf b { c with valid := true, dirty := false }
      complete := s.complete + 1 }
    let s := wakeup s b
    match s.link none with
    | none => some s
    | some b => idestart s b

/-- The controller carries out a command. -/
def perform (disk : ℕ → ℕ → Block) (c : Cmd) : (ℕ → ℕ → Block) × Block :=
  match c.write with
  | some data => (update disk c.unit (update (disk c.unit) c.sector data), data)
  | none => (disk, disk c.unit c.sector)

def step (s : State P β) : Label P β → Option (State P β)
  | .change b c =>
    if ∃ p, (s.pc p).buf = some b then none else some { s with buf := update s.buf b c }
  | .call p b =>
    if s.pc p ≠ .out ∨ ∃ q, (s.pc q).buf = some b then none
    else if ¬(s.buf b).busy then none     -- iderw: buf not busy
    else if (s.buf b).synced then none    -- iderw: nothing to do
    else if (s.buf b).dev ≠ 0 ∧ ¬s.havedisk1 then none   -- iderw: ide disk 1 not present
    else some { s with pc := update s.pc p (.enter b) }
  | .enqueue p =>
    match s.pc p with
    | .enter b => enqueue s p b
    | _ => none
  | .finish =>
    match s.ctl with
    | .busy c =>
      let r := perform s.disk c
      some { s with disk := r.1, ctl := .done c r.2 }
    | _ => none
  | .intr =>
    match s.ctl with
    | .done _ latch => ideintr s latch
    | _ => none
  | .kill p =>
    match s.pc p with
    | .asleep b k => some { s with pc := update s.pc p (.runnable b k) }
    | _ => none
  | .resume p =>
    match s.pc p with
    | .runnable b k => some (waitLoop s p b k)
    | _ => none

/-- The driver starts with an empty queue, an idle controller and no process in `iderw`. -/
structure Start (s : State P β) : Prop where
  link : s.link none = none
  ctl : s.ctl = .idle
  pc : ∀ p, s.pc p = .out
  reqs : s.reqs = []
  complete : s.complete = 0

/-- The calls are for the disk that `memide.c` has, and for blocks of the file system. -/
def Served (s : State P β) : Label P β → Prop
  | .call _ b => (s.buf b).dev = 1 ∧ (s.buf b).blockno < FSSIZE
  | _ => True

end Xv6.Ide
