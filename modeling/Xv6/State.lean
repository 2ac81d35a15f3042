import Xv6.Lib.Wp
import Xv6.LogOps

/-!
# The state of the file system

The state a file-system call of `fs.c`, `file.c` and `sysfile.c` reads and writes : the
disk, the superblock, the log, the inode cache, the file table and the processes. The
calls are programs on this state that return or stop, by `panic` or by sleeping on a
lock nobody else will release. They run one at a time, so the spin locks are left out.

`FS.disk` is what `bread` returns for a block : the buffer cache over the disk, with the
blocks of the running transaction as they were last changed. `logWrite` changes a block
of it and records the block in the log header : `Log.lh` lists the blocks the running
transaction has logged, without repetition, and `Log.committed` the block lists of the
transactions that ended.
-/

open Prog Layout

namespace Xv6

/-- Why a call does not return. -/
inductive Stop where
  | panic (msg : String)
  /-- `sleep` with nobody running to wake the caller. -/
  | sleep
  deriving DecidableEq

/-- The log as the file system sees it. -/
structure Log where
  /-- Number of blocks of the on-disk log, its header included. -/
  size : ℤ
  outstanding : ℤ
  /-- The logged block numbers, `lh.block[0..lh.n)`. -/
  lh : List ℕ
  /-- The block numbers of each transaction that was committed, newest first. -/
  committed : List (List ℕ)

/-- The in-memory inode. -/
structure Inode where
  dev : ℕ
  inum : ℕ
  ref : ℤ
  /-- `I_BUSY`. -/
  busy : Bool
  /-- `I_VALID`. -/
  valid : Bool
  din : Dinode

/-- A pointer into the inode cache. -/
abbrev Iptr := Fin NINODE

/-- The cache entry in use for an inode, the first search of `iget`. -/
def cachedSlot (c : Iptr → Inode) (dev inum : ℕ) : Option Iptr :=
  (List.finRange NINODE).find? fun k =>
    decide ((c k).ref > 0) && (c k).dev == dev && (c k).inum == inum

/-- A cache entry not in use, for `iget` to recycle. -/
def emptySlot (c : Iptr → Inode) : Option Iptr :=
  (List.finRange NINODE).find? fun k => (c k).ref == 0

theorem cachedSlot_eq_some {c : Iptr → Inode} {dev inum : ℕ} {k : Iptr}
    (h : cachedSlot c dev inum = some k) :
    0 < (c k).ref ∧ (c k).dev = dev ∧ (c k).inum = inum := by
  simpa [and_assoc] using List.find?_some h

theorem cachedSlot_eq_none {c : Iptr → Inode} {dev inum : ℕ} (h : cachedSlot c dev inum = none)
    (k : Iptr) (hk : 0 < (c k).ref) (hdev : (c k).dev = dev) : (c k).inum ≠ inum := by
  have := List.find?_eq_none.1 h k (List.mem_finRange k)
  simp only [gt_iff_lt, Bool.and_eq_true, decide_eq_true_eq, beq_iff_eq] at this
  exact fun hinum => this ⟨⟨hk, hdev⟩, hinum⟩

theorem emptySlot_eq_some {c : Iptr → Inode} {k : Iptr} (h : emptySlot c = some k) :
    (c k).ref = 0 := by
  simpa using List.find?_some h

/-- Kind of an open file. -/
inductive FdType where
  | none
  | pipe
  | inode
  deriving DecidableEq

/-- An open file. -/
structure File where
  type : FdType
  ref : ℤ
  readable : Bool
  writable : Bool
  pipe : ℕ
  ip : Iptr
  off : UInt32

/-- A pointer into the file table. -/
abbrev Fptr := Fin NFILE

/-- What a process holds of the file system. A slot that is not in use has no current
directory. -/
structure Proc where
  cwd : Option Iptr
  ofile : Fin NOFILE → Option Fptr

/-- Devices and pipes, which touch no file-system state : the bytes a read returns and
the count a write returns, `none` for an error. -/
structure Devices where
  /-- `devsw[major].read`, absent when the pointer is null. -/
  devread : ℕ → Option (ℕ → Option (List UInt8))
  /-- `devsw[major].write`, absent when the pointer is null. -/
  devwrite : ℕ → Option ((ℕ → UInt8) → ℕ → Option ℕ)
  piperead : ℕ → ℕ → Option (List UInt8)
  pipewrite : ℕ → (ℕ → UInt8) → ℕ → Option ℕ

/-- The state of the file system. -/
structure FS where
  /-- The blocks, through the buffer cache. -/
  disk : ℕ → Block
  sb : Superblock
  log : Log
  icache : Iptr → Inode
  ftable : Fptr → File
  procs : Fin NPROC → Proc
  devices : Devices
  /-- What an uninitialised buffer on the kernel stack holds. -/
  stack : ℕ → UInt8

/-- Programs on the state of the file system. -/
abbrev M := EStateM Stop FS

def panic {α : Type} (msg : String) : M α :=
  throw (.panic msg)

/-! ## The buffer cache and the log -/

/-- `bread(dev, b)->data`. -/
def bread (b : ℕ) : M Block := do
  return (← get).disk b

/-- `log_write` of block `b`, whose buffer the caller has changed to `data`. -/
def logWrite (b : ℕ) (data : Block) : M Unit := do
  modify fun s => { s with disk := setBlock s.disk b data }
  let s ← get
  if LOGSIZE ≤ s.log.lh.length ∨ s.log.size - 1 ≤ s.log.lh.length then
    panic "too big a transaction"
  else if s.log.outstanding < 1 then
    panic "log_write outside of trans"
  else
    modify fun s => { s with log := { s.log with lh := absorb b s.log.lh } }

/-- `begin_op`, with no commit in progress. -/
def beginOp : M Unit := do
  let s ← get
  if s.log.lh.length + (s.log.outstanding + 1) * MAXOPBLOCKS > LOGSIZE then
    throw .sleep
  else
    modify fun s => { s with log := { s.log with outstanding := s.log.outstanding + 1 } }

/-- `end_op`. The commit installs the logged blocks, which `FS.disk` already shows. -/
def endOp : M Unit := do
  modify fun s => { s with log := { s.log with outstanding := s.log.outstanding - 1 } }
  let s ← get
  if s.log.outstanding = 0 then
    modify fun s => { s with log := { s.log with
      lh := []
      committed := s.log.lh :: s.log.committed } }

/-! ## C strings -/

/-- `strncmp(p + i, q + i, n)`. -/
def strncmp (p q : ℕ → UInt8) : ℕ → ℕ → ℤ
  | _, 0 => 0
  | i, n + 1 =>
    if p i ≠ 0 ∧ p i = q i then strncmp p q (i + 1) n else (p i).toNat - (q i).toNat

/-- The bytes `strncpy(s, t + i, n)` leaves at `s` : once the terminator is copied, the
second loop fills the rest with zeroes. -/
def strncpy (t : ℕ → UInt8) : ℕ → ℕ → List UInt8
  | _, 0 => []
  | i, n + 1 => if t i = 0 then List.replicate (n + 1) 0 else t i :: strncpy t (i + 1) n

/-- A C string literal as the bytes it points to. -/
def cstr (l : List UInt8) : ℕ → UInt8 :=
  fun i => l.getD i 0

end Xv6
