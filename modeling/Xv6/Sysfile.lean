import Xv6.File

/-!
# `sysfile.c` and the file-system part of processes

The file-system calls of `sysfile.c`, and what `fork`, `exec` and `exit` do to the file
system, as programs of the calling process `p`. An argument that `argstr`, `argint` or
`argfd` fetches is an option, `none` when fetching it fails; the result `-1` is `none`
or `false`.

`Call` lists the calls and `Call.run` runs one.
-/

open Prog Layout

namespace Xv6

def modifyProc (p : Fin NPROC) (g : Proc → Proc) : M Unit :=
  modify fun s => { s with procs := Function.update s.procs p (g (s.procs p)) }

/-- Set descriptor `fd` of process `p`. -/
def setFd (p : Fin NPROC) (fd : Fin NOFILE) (f : Option Fptr) : M Unit :=
  modifyProc p fun q => { q with ofile := Function.update q.ofile fd f }

/-- `argfd` : the descriptor and the file behind it. -/
def argfd (p : Fin NPROC) (fd : ℤ) : M (Option (Fin NOFILE × Fptr)) := do
  let s ← get
  if h : 0 ≤ fd ∧ fd < NOFILE then
    let d : Fin NOFILE := ⟨fd.toNat, by omega⟩
    return ((s.procs p).ofile d).map (d, ·)
  else
    return none

def fdalloc (p : Fin NPROC) (f : Fptr) : M (Option (Fin NOFILE)) := do
  let s ← get
  match (List.finRange NOFILE).find? fun d => (s.procs p).ofile d == none with
  | some d =>
    setFd p d (some f)
    return some d
  | none => return none

def sysDup (p : Fin NPROC) (fd : ℤ) : M (Option (Fin NOFILE)) := do
  match ← argfd p fd with
  | none => return none
  | some (_, f) =>
    match ← fdalloc p f with
    | none => return none
    | some d =>
      let _ ← filedup f
      return some d

def sysRead (p : Fin NPROC) (fd : ℤ) (n : UInt32) : M (Option (List UInt8)) := do
  match ← argfd p fd with
  | none => return none
  | some (_, f) => fileread f n

def sysWrite (p : Fin NPROC) (fd : ℤ) (src : ℕ → UInt8) (n : ℤ) : M (Option ℤ) := do
  match ← argfd p fd with
  | none => return none
  | some (_, f) => filewrite f src n

def sysClose (p : Fin NPROC) (fd : ℤ) : M Bool := do
  match ← argfd p fd with
  | none => return false
  | some (d, f) =>
    setFd p d none
    fileclose f
    return true

/-- `sys_link` after the label `bad`. -/
def sysLinkBad (ip : Iptr) : M Bool := do
  ilock ip
  modifyDin ip fun d => { d with nlink := d.nlink - 1 }
  iupdate ip
  iunlockput ip
  endOp
  return false

def sysLink (p : Fin NPROC) (old new : List UInt8) : M Bool := do
  beginOp
  match ← namei p old with
  | none =>
    endOp
    return false
  | some ip =>
    ilock ip
    let s ← get
    if (s.icache ip).din.type = T_DIR then
      iunlockput ip
      endOp
      return false
    else do
      modifyDin ip fun d => { d with nlink := d.nlink + 1 }
      iupdate ip
      iunlock ip
      match ← nameiparent p new with
      | none => sysLinkBad ip
      | some (dp, name) =>
        ilock dp
        let s ← get
        let linked ←
          if (s.icache dp).dev ≠ (s.icache ip).dev then
            pure false
          else
            dirlink dp name (s.icache ip).inum
        iunlockput dp
        if linked then
          iput ip
          endOp
          return true
        else
          sysLinkBad ip

/-- The loop of `isdirempty` over the remaining offsets. -/
def isdiremptyLoop (dp : Iptr) : List ℕ → M Bool
  | [] => return true
  | off :: offs => do
    let de ← readDirent dp off "isdirempty: readi"
    if de.inum ≠ 0 then return false else isdiremptyLoop dp offs

def isdirempty (dp : Iptr) : M Bool := do
  let s ← get
  isdiremptyLoop dp (direntOffsets 2 (s.icache dp).din.size.toNat)

/-- `sys_unlink` after the label `bad`. -/
def sysUnlinkBad (dp : Iptr) : M Bool := do
  iunlockput dp
  endOp
  return false

def dot : ℕ → UInt8 := cstr [46]

def dotdot : ℕ → UInt8 := cstr [46, 46]

/-- `sys_unlink` from the point where the entry of `ip` at offset `off` of `dp` goes. -/
def sysUnlinkEntry (dp ip : Iptr) (off : ℕ) : M Bool := do
  writeDirent dp off ⟨0, fun _ => 0⟩ "unlink: writei"
  let s ← get
  if (s.icache ip).din.type = T_DIR then
    modifyDin dp fun d => { d with nlink := d.nlink - 1 }
    iupdate dp
  iunlockput dp
  modifyDin ip fun d => { d with nlink := d.nlink - 1 }
  iupdate ip
  iunlockput ip
  endOp
  return true

def sysUnlink (p : Fin NPROC) (path : List UInt8) : M Bool := do
  beginOp
  match ← nameiparent p path with
  | none =>
    endOp
    return false
  | some (dp, name) =>
    ilock dp
    if namecmp name dot = 0 ∨ namecmp name dotdot = 0 then
      sysUnlinkBad dp
    else
      match ← dirlookup dp name with
      | none => sysUnlinkBad dp
      | some (ip, off) =>
        ilock ip
        let s ← get
        if (s.icache ip).din.nlink < 1 then
          panic "unlink: nlink < 1"
        else do
          let full ←
            if (s.icache ip).din.type = T_DIR then
              not <$> isdirempty ip
            else
              pure false
          if full then
            iunlockput ip
            sysUnlinkBad dp
          else
            sysUnlinkEntry dp ip off

/-- The part of `create` that makes the new inode and links it as `name` in `dp`. -/
def createNew (dp : Iptr) (name : ℕ → UInt8) (type major minor : Int16) : M Iptr := do
  let ip ← ialloc ((← get).icache dp).dev type
  ilock ip
  modifyDin ip fun d => { d with major := major, minor := minor, nlink := 1 }
  iupdate ip
  if type = T_DIR then do
    -- Create the entries "." and "..".
    modifyDin dp fun d => { d with nlink := d.nlink + 1 }
    iupdate dp
    let self := ((← get).icache ip).inum
    if ← dirlink ip dot self then
      if ← dirlink ip dotdot ((← get).icache dp).inum then
        pure ()
      else
        panic "create dots"
    else
      panic "create dots"
  if ← dirlink dp name ((← get).icache ip).inum then
    iunlockput dp
    return ip
  else
    panic "create: dirlink"

def create (p : Fin NPROC) (path : List UInt8) (type major minor : Int16) :
    M (Option Iptr) := do
  match ← nameiparent p path with
  | none => return none
  | some (dp, name) =>
    ilock dp
    match ← dirlookup dp name with
    | some (ip, _) =>
      iunlockput dp
      ilock ip
      let s ← get
      if type = T_FILE ∧ (s.icache ip).din.type = T_FILE then
        return some ip
      else
        iunlockput ip
        return none
    | none => return some (← createNew dp name type major minor)

/-- The part of `sys_open` that finds or makes the inode and locks it. -/
def openInode (p : Fin NPROC) (path : List UInt8) (omode : UInt32) : M (Option Iptr) := do
  if omode &&& O_CREATE ≠ 0 then
    create p path T_FILE 0 0
  else
    match ← namei p path with
    | none => return none
    | some ip =>
      ilock ip
      let s ← get
      if (s.icache ip).din.type = T_DIR ∧ omode ≠ O_RDONLY then
        iunlockput ip
        return none
      else
        return some ip

/-- The part of `sys_open` that gives the locked inode a file and a descriptor. -/
def openFile (p : Fin NPROC) (ip : Iptr) (omode : UInt32) : M (Option (Fin NOFILE)) := do
  match ← filealloc with
  | none =>
    iunlockput ip
    endOp
    return none
  | some f =>
    match ← fdalloc p f with
    | none =>
      fileclose f
      iunlockput ip
      endOp
      return none
    | some fd =>
      iunlock ip
      endOp
      modifyFile f fun f =>
        { f with
          type := .inode
          ip := ip
          off := 0
          readable := decide (omode &&& O_WRONLY = 0)
          writable := decide (omode &&& O_WRONLY ≠ 0) || decide (omode &&& O_RDWR ≠ 0) }
      return some fd

def sysOpen (p : Fin NPROC) (path : List UInt8) (omode : UInt32) :
    M (Option (Fin NOFILE)) := do
  beginOp
  match ← openInode p path omode with
  | none =>
    endOp
    return none
  | some ip => openFile p ip omode

/-- `sys_mkdir` and `sys_mknod` : make an inode of type `type`, and keep no reference. -/
def sysMake (p : Fin NPROC) (path : Option (List UInt8)) (type major minor : Int16) :
    M Bool := do
  beginOp
  match path with
  | none =>
    endOp
    return false
  | some path =>
    match ← create p path type major minor with
    | none =>
      endOp
      return false
    | some ip =>
      iunlockput ip
      endOp
      return true

def sysMkdir (p : Fin NPROC) (path : Option (List UInt8)) : M Bool :=
  sysMake p path T_DIR 0 0

def sysMknod (p : Fin NPROC) (args : Option (List UInt8 × Int16 × Int16)) : M Bool :=
  match args with
  | none => sysMake p none T_DEV 0 0
  | some (path, major, minor) => sysMake p (some path) T_DEV major minor

def sysChdir (p : Fin NPROC) (path : Option (List UInt8)) : M Bool := do
  beginOp
  let found ← match path with
    | none => pure none
    | some path => namei p path
  match found with
  | none =>
    endOp
    return false
  | some ip =>
    ilock ip
    let s ← get
    if (s.icache ip).din.type ≠ T_DIR then
      iunlockput ip
      endOp
      return false
    else do
      iunlock ip
      match (s.procs p).cwd with
      | some cwd => iput cwd
      | none => panic "trap"
      endOp
      modifyProc p fun q => { q with cwd := some ip }
      return true

/-- `exec` as far as it uses the file system : the reads it makes of the file, which
depend on the bytes it finds there and on the memory it gets, are a list of offsets and
lengths. -/
def execFile (p : Fin NPROC) (path : List UInt8) (reads : List (UInt32 × UInt32)) :
    M Bool := do
  beginOp
  match ← namei p path with
  | none =>
    endOp
    return false
  | some ip =>
    ilock ip
    forM reads fun r => do
      let _ ← readi ip r.1 r.2
    iunlockput ip
    endOp
    return true

/-- `fork` as far as it uses the file system : the child in the free slot `np` gets the
files and the current directory. -/
def fork (p np : Fin NPROC) : M Bool := do
  let s ← get
  if (s.procs np).cwd ≠ none ∨ ∃ fd, (s.procs np).ofile fd ≠ none then
    return false
  else do
    forM (List.finRange NOFILE) fun fd => do
      match (s.procs p).ofile fd with
      | some f =>
        let f ← filedup f
        setFd np fd (some f)
      | none => pure ()
    match (s.procs p).cwd with
    | some cwd =>
      let cwd ← idup cwd
      modifyProc np fun q => { q with cwd := some cwd }
    | none => panic "trap"
    return true

/-- `exit` as far as it uses the file system. Process `0` is `initproc`. -/
def exit (p : Fin NPROC) : M Unit := do
  if p.val = 0 then
    panic "init exiting"
  else do
    forM (List.finRange NOFILE) fun fd => do
      let s ← get
      match (s.procs p).ofile fd with
      | some f =>
        fileclose f
        setFd p fd none
      | none => pure ()
    beginOp
    let s ← get
    match (s.procs p).cwd with
    | some cwd => iput cwd
    | none => panic "trap"
    endOp
    modifyProc p fun q => { q with cwd := none }

/-! ## Calls -/

/-- A file-system call with its arguments. -/
inductive Call where
  | dup (fd : ℤ)
  | read (fd : ℤ) (n : UInt32)
  | write (fd : ℤ) (src : ℕ → UInt8) (n : ℤ)
  | close (fd : ℤ)
  | link (old new : List UInt8)
  | unlink (path : List UInt8)
  | open (path : List UInt8) (omode : UInt32)
  | mkdir (path : Option (List UInt8))
  | mknod (args : Option (List UInt8 × Int16 × Int16))
  | chdir (path : Option (List UInt8))
  | exec (path : List UInt8) (reads : List (UInt32 × UInt32))
  | fork (np : Fin NPROC)
  | exit

/-- Run a call of process `p` : whether it succeeds. -/
def Call.run (p : Fin NPROC) : Call → M Bool
  | .dup fd => Option.isSome <$> sysDup p fd
  | .read fd n => Option.isSome <$> sysRead p fd n
  | .write fd src n => Option.isSome <$> sysWrite p fd src n
  | .close fd => sysClose p fd
  | .link old new => sysLink p old new
  | .unlink path => sysUnlink p path
  | .open path omode => Option.isSome <$> sysOpen p path omode
  | .mkdir path => sysMkdir p path
  | .mknod args => sysMknod p args
  | .chdir path => sysChdir p path
  | .exec path reads => execFile p path reads
  | .fork np => Xv6.fork p np
  | .exit => do
    Xv6.exit p
    return true

end Xv6
