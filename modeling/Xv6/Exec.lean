import Xv6.Ptable
import Xv6.Vm

/-!
# Pages of the processes

The calls that allocate and free pages : `fork`, `exec`, `sbrk`, `exit`, `wait`, `pipe` and
the close of the last reference to an end of a pipe, and the start of the system up to the
first process. Calls run one after the other, each to its end. The file that `exec` loads,
its arguments and the calls of `kalloc` that fail are decided by the label of a call; a step
that panics cannot be taken.
-/

open Function Layout

namespace Xv6.Vm

open Ptable (Slot)

/-! ## `exec` -/

/-- Most arguments of `exec`. -/
abbrev MAXARG : ℕ := 32
abbrev ELF_MAGIC : UInt32 := 0x464C457F
abbrev ELF_PROG_LOAD : UInt32 := 1
/-- `sizeof(struct elfhdr)`. -/
abbrev ELFHDR : ℕ := 52
/-- `sizeof(struct proghdr)`. -/
abbrev PROGHDR : ℕ := 32

/-- The word at byte `o` of a file. -/
def Image.u32 (f : Image) (o : ℕ) : UInt32 :=
  Codec.u32.ofByte fun k => f.byte (o + k)

/-- `elf.magic`. -/
def Image.magic (f : Image) : UInt32 :=
  f.u32 0

/-- `elf.phoff`. -/
def Image.phoff (f : Image) : UInt32 :=
  f.u32 28

/-- `elf.phnum`. -/
def Image.phnum (f : Image) : ℕ :=
  (Codec.u16.ofByte fun k => f.byte (44 + k)).toNat

/-- The program header at byte `o` of a file. -/
def Image.proghdr (f : Image) (o : ℕ) : Proghdr :=
  ⟨f.u32 o, f.u32 (o + 4), f.u32 (o + 8), f.u32 (o + 16), f.u32 (o + 20)⟩

/-- The loop of `exec` over `count` program headers from `off` on. -/
def loadSegments (K : Link) (d : ℕ) (f : Image) : ℕ → UInt32 → UInt32 → M (Option UInt32)
  | 0, _, sz => return some sz
  | count + 1, off, sz => do
    if f.readi off PROGHDR ≠ PROGHDR then return none
    let ph := f.proghdr off.toNat
    if ph.type ≠ ELF_PROG_LOAD then loadSegments K d f count (off + 32) sz
    else if ph.memsz < ph.filesz then return none
    else do
      let sz' ← allocuvm K d sz (ph.vaddr + ph.memsz)
      if sz' = 0 then return none
      if ← loaduvm d f ph sz' then loadSegments K d f count (off + 32) sz' else return none

/-- The loop of `exec` over the arguments, with the stack pointers of those before. -/
def pushArgs (cur d : ℕ) :
    List (List UInt8) → ℕ → UInt32 → List UInt32 → M (Option (UInt32 × List UInt32))
  | [], _, sp, ustack => return some (sp, ustack)
  | s :: argv, argc, sp, ustack => do
    if MAXARG ≤ argc then return none
    let sp := (sp - UInt32.ofNat (s.length + 1)) &&& ~~~3
    if ← copyout cur d sp (s ++ [0]) then pushArgs cur d argv (argc + 1) sp (ustack ++ [sp])
    else return none

/-- The stack of a program. -/
def pushStack (cur d : ℕ) (argv : List (List UInt8)) (sz : UInt32) : M Bool := do
  match ← pushArgs cur d argv 0 sz [] with
  | none => return false
  | some (sp, args) => do
    let argc := UInt32.ofNat argv.length
    let ustack := 0xffffffff :: argc :: (sp - (argc + 1) * 4) :: args ++ [0]
    copyout cur d (sp - (3 + argc + 1) * 4)
      (ustack.flatMap fun w => (List.range 4).map (Codec.u32.toByte w))

/-- `exec` after the program headers, to where it commits. -/
def startProgram (K : Link) (cur d : ℕ) (argv : List (List UInt8)) (sz : UInt32) :
    M (Option UInt32) := do
  let sz := UInt32.ofNat (pageUp sz * PGSIZE)
  let sz ← allocuvm K d sz (sz + 2 * 4096)
  if sz = 0 then return none
  clearpteu d (page (sz - 2 * 4096))
  if ← pushStack cur d argv sz then return some sz else return none

/-- `exec` from the program headers to where it commits, into `d`. -/
def loadImage (K : Link) (cur d : ℕ) (f : Image) (argv : List (List UInt8)) :
    M (Option UInt32) := do
  match ← loadSegments K d f f.phnum f.phoff 0 with
  | none => return none
  | some sz => startProgram K cur d argv sz

/-- `exec`, with `cur` the page directory of the process : the new page directory and size. -/
def exec (K : Link) (cur : ℕ) (f : Image) (argv : List (List UInt8)) :
    M (Option (ℕ × UInt32)) := do
  if f.readi 0 ELFHDR < ELFHDR then return none
  if f.magic ≠ ELF_MAGIC then return none
  match ← setupkvm K with
  | none => return none
  | some d => do
    match ← loadImage K cur d f argv with
    | none => do
      freevm K d
      return none
    | some sz => do
      freevm K cur
      return some (d, sz)

/-! ## The other calls -/

/-- `growproc` : the new size. -/
def growproc (K : Link) (d : ℕ) (sz : UInt32) (n : Int32) : M (Option UInt32) := do
  if 0 < n then do
    let sz ← allocuvm K d sz (sz + n.toUInt32)
    return if sz = 0 then none else some sz
  else if n < 0 then do
    let sz ← deallocuvm K d sz (sz + n.toUInt32)
    return if sz = 0 then none else some sz
  else return some sz

/-- What `fork` allocates : the page directory and the kernel stack of the child. -/
def forkPages (K : Link) (d : ℕ) (sz : UInt32) : M (Option (ℕ × ℕ)) := do
  match ← kalloc with
  | none => return none
  | some kstack => do
    match ← copyuvm K d sz with
    | none => do
      kfree K kstack
      return none
    | some d' => return some (d', kstack)

/-- What `wait` frees. -/
def waitPages (K : Link) (d kstack : ℕ) : M Unit := do
  kfree K kstack
  freevm K d

/-- What a process holds. -/
structure Proc where
  pgdir : ℕ
  kstack : ℕ
  sz : UInt32
  zombie : Bool

/-- A pipe. -/
structure Pipe where
  page : ℕ
  readopen : Bool
  writeopen : Bool

/-- Memory, and what holds its pages. -/
structure State where
  mem : Mem
  kpgdir : ℕ
  /-- The stacks of the other CPUs. -/
  cpuStacks : List ℕ
  proc : Slot → Option Proc
  pipe : ℕ → Option Pipe

/-- A call. -/
inductive Label where
  /-- Process `p` forks, into slot `q`. -/
  | fork (p q : Slot) (fails : List Bool)
  | exec (p : Slot) (f : Image) (argv : List (List UInt8)) (fails : List Bool)
  /-- Process `p` grows or shrinks. -/
  | sbrk (p : Slot) (n : Int32) (fails : List Bool)
  | exit (p : Slot)
  /-- The zombie in slot `q` is reaped. -/
  | wait (q : Slot)
  | pipe (i : ℕ) (fails : List Bool)
  /-- The last reference to an end of pipe `i` is closed. -/
  | close (i : ℕ) (writable : Bool)

/-- Run a program on the memory of a state. -/
def State.exec {α : Type} (s : State) (fails : List Bool) (m : M α) (k : α → State → State) :
    Option State :=
  match m { s.mem with fails := fails } with
  | .ok a v => some (k a { s with mem := v })
  | .error _ _ => none

def State.setProc (s : State) (p : Slot) (x : Option Proc) : State :=
  { s with proc := update s.proc p x }

def State.setPipe (s : State) (i : ℕ) (x : Option Pipe) : State :=
  { s with pipe := update s.pipe i x }

/-- `pipeclose`. -/
def Pipe.close (x : Pipe) (writable : Bool) : Pipe :=
  if writable then { x with writeopen := false } else { x with readopen := false }

def step (K : Link) (s : State) : Label → Option State
  | .fork p q fails =>
    match s.proc p, s.proc q with
    | some x, none =>
      if x.zombie then none
      else s.exec fails (forkPages K x.pgdir x.sz) fun r s =>
        match r with
        | none => s
        | some (d, kstack) => s.setProc q (some ⟨d, kstack, x.sz, false⟩)
    | _, _ => none
  | .exec p f argv fails =>
    match s.proc p with
    | some x =>
      if x.zombie then none
      else s.exec fails (Vm.exec K x.pgdir f argv) fun r s =>
        match r with
        | none => s
        | some (d, sz) => s.setProc p (some { x with pgdir := d, sz := sz })
    | none => none
  | .sbrk p n fails =>
    match s.proc p with
    | some x =>
      if x.zombie then none
      else s.exec fails (growproc K x.pgdir x.sz n) fun r s =>
        match r with
        | none => s
        | some sz => s.setProc p (some { x with sz := sz })
    | none => none
  | .exit p =>
    match s.proc p with
    | some x => if x.zombie then none else some (s.setProc p (some { x with zombie := true }))
    | none => none
  | .wait q =>
    match s.proc q with
    | some x =>
      if x.zombie then s.exec [] (waitPages K x.pgdir x.kstack) fun _ s => s.setProc q none
      else none
    | none => none
  | .pipe i fails =>
    match s.pipe i with
    | none => s.exec fails kalloc fun r s =>
      match r with
      | none => s
      | some x => s.setPipe i (some ⟨x, true, true⟩)
    | some _ => none
  | .close i writable =>
    match s.pipe i with
    | some x =>
      if (if writable then x.writeopen else x.readopen) = false then none
      else
        let x := x.close writable
        if x.readopen || x.writeopen then some (s.setPipe i (some x))
        else s.exec [] (kfree K x.page) fun _ s => s.setPipe i none
    | none => none

/-! ## Start -/

/-- `freerange`, for the pages from `x` to `y`. -/
def freerange (K : Link) (x y : ℕ) : M Unit :=
  forM (List.range' x (y - x)) (kfree K)

/-- The stacks that `startothers` allocates for `m` CPUs. -/
def startothers : ℕ → M (List ℕ)
  | 0 => return []
  | m + 1 => do
    match ← kalloc with
    | none => throw (.panic "startothers")
    | some x => return x :: (← startothers m)

def inituvm (d : ℕ) (init : ℕ → UInt32) : M Unit := do
  match ← kalloc with
  | none => throw (.panic "inituvm")
  | some x => do
    modify fun v => v.fill x init
    let _ ← mappages d (PTE_W ||| PTE_U) 1 0 x
    return ()

/-- What `userinit` allocates. -/
def userinit (K : Link) (init : ℕ → UInt32) : M Proc := do
  match ← kalloc with
  | none => throw (.panic "userinit")
  | some kstack => do
    match ← setupkvm K with
    | none => throw (.panic "userinit: out of memory?")
    | some d => do
      inituvm d init
      return ⟨d, kstack, UInt32.ofNat PGSIZE, false⟩

/-- `main`, as far as it allocates pages, with `m` other CPUs. -/
def main (K : Link) (m : ℕ) (init : ℕ → UInt32) : M (ℕ × List ℕ × Proc) := do
  freerange K K.kend 1024
  match ← setupkvm K with
  | none => throw (.panic "kvmalloc")
  | some kpgdir => do
    let cpuStacks ← startothers m
    freerange K 1024 PHYSTOP
    return (kpgdir, cpuStacks, ← userinit K init)

/-- The state with the first process, from any contents of memory. -/
def start (K : Link) (m : ℕ) (word : ℕ → ℕ → UInt32) (init : ℕ → UInt32) : Option State :=
  match main K m init ⟨word, [], [], []⟩ with
  | .ok (kpgdir, cpuStacks, x) v =>
    some ⟨v, kpgdir, cpuStacks, update (fun _ => none) Ptable.initproc (some x),
      fun _ => none⟩
  | .error _ _ => none

end Xv6.Vm
