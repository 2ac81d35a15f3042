import Xv6.Sysfile

/-!
# `mkfs.c`

`mkfs` as a program on the image file it writes. The host is little-endian, so `xint`
and `xshort` are identities and a struct is laid out by its codec. A sector past the end
of the image file cannot be read; writing one makes the file longer.

`bootState` is the kernel's state after `iinit`, `initlog` and `userinit` on an image :
the first process in the root directory, no open files, an empty log.
-/

open Prog Layout

namespace Xv6

namespace Mkfs

abbrev NINODES : ℕ := 200
abbrev nbitmap : ℕ := FSSIZE / (BSIZE * 8) + 1
abbrev ninodeblocks : ℕ := NINODES / IPB + 1
abbrev nlog : ℕ := LOGSIZE
/-- Number of boot, super, log, inode and bitmap blocks. -/
abbrev nmeta : ℕ := 2 + nlog + ninodeblocks + nbitmap

def sb : Superblock where
  size := UInt32.ofNat FSSIZE
  nblocks := UInt32.ofNat (FSSIZE - nmeta)
  ninodes := UInt32.ofNat NINODES
  nlog := UInt32.ofNat nlog
  logstart := 2
  inodestart := UInt32.ofNat (2 + nlog)
  bmapstart := UInt32.ofNat (2 + nlog + ninodeblocks)

/-- How `mkfs` fails. -/
inductive Fail where
  | exit
  | assert
  deriving DecidableEq

/-- The image file and the counters of `mkfs`. -/
structure State where
  /-- Number of sectors of the image file. -/
  len : ℕ
  img : ℕ → Block
  freeinode : ℕ
  freeblock : ℕ

/-- Programs of `mkfs`. -/
abbrev MkM := EStateM Fail State

def wsect (sec : ℕ) (buf : Block) : MkM Unit :=
  modify fun s => { s with len := max s.len (sec + 1), img := setBlock s.img sec buf }

def rsect (sec : ℕ) : MkM Block := do
  let s ← get
  if sec < s.len then return s.img sec else throw .exit

def winode (inum : ℕ) (d : Dinode) : MkM Unit := do
  let buf ← rsect (IBLOCK inum sb)
  wsect (IBLOCK inum sb) (Bytes.write Dinode.codec buf (64 * (inum % IPB)) d)

def rinode (inum : ℕ) : MkM Dinode := do
  let buf ← rsect (IBLOCK inum sb)
  return Bytes.read Dinode.codec buf (64 * (inum % IPB))

def ialloc (type : Int16) : MkM ℕ := do
  let inum := (← get).freeinode
  modify fun s => { s with freeinode := s.freeinode + 1 }
  winode inum { Dinode.zero with type := type, nlink := 1 }
  return inum

/-- The bitmap `balloc(used)` writes, with the first `used` bits set. -/
def usedBitmap (used : ℕ) : Block :=
  (List.range used).foldl setBit zeroBlock

def balloc (used : ℕ) : MkM Unit := do
  if used < BSIZE * 8 then
    wsect sb.bmapstart.toNat (usedBitmap used)
  else
    throw .assert

/-- `freeblock++`. -/
def nextBlock : MkM ℕ := do
  let b := (← get).freeblock
  modify fun s => { s with freeblock := s.freeblock + 1 }
  return b

/-- The block of file block `fbn` in the loop of `iappend`, allocated when missing. -/
def iappendBlock (d : Dinode) (fbn : ℕ) : MkM (Dinode × ℕ) := do
  if fbn < NDIRECT then
    if d.addr fbn = 0 then do
      let d := d.setAddr fbn (← nextBlock)
      return (d, d.addr fbn)
    else
      return (d, d.addr fbn)
  else do
    let d ← if d.addr NDIRECT = 0 then do
        pure (d.setAddr NDIRECT (← nextBlock))
      else
        pure d
    let indirect ← rsect (d.addr NDIRECT)
    let x := indWord indirect (fbn - NDIRECT)
    if x = 0 then do
      let x ← nextBlock
      wsect (d.addr NDIRECT)
        (Bytes.write Codec.u32 indirect (4 * (fbn - NDIRECT)) (UInt32.ofNat x))
      return (d, x)
    else
      return (d, x)

/-- The loop of `iappend` at offset `off`, in at most `fuel` turns. -/
def iappendLoop : ℕ → Dinode → ℕ → List UInt8 → MkM (Dinode × ℕ)
  | 0, d, off, _ => return (d, off)
  | fuel + 1, d, off, p =>
    if p = [] then
      return (d, off)
    else if off / BSIZE < MAXFILE then do
      let (d, x) ← iappendBlock d (off / BSIZE)
      let n1 := min p.length ((off / BSIZE + 1) * BSIZE - off)
      let buf ← rsect x
      wsect x (buf.blit (off - off / BSIZE * BSIZE) n1 (cstr p))
      iappendLoop fuel d (off + n1) (p.drop n1)
    else
      throw .assert

def iappend (inum : ℕ) (p : List UInt8) : MkM Unit := do
  let d ← rinode inum
  let (d, off) ← iappendLoop p.length d d.size.toNat p
  winode inum { d with size := UInt32.ofNat off }

/-- The bytes of a directory entry. -/
def direntBytes (inum : ℕ) (name : ℕ → UInt8) : List UInt8 :=
  (List.range DIRENT).map
    (Dirent.codec.toByte ⟨UInt16.ofNat inum, fun j => (strncpy name 0 DIRSIZ).getD j 0⟩)

/-- The reads of a host file, `sizeof(buf)` bytes at a time. -/
def chunks : ℕ → List UInt8 → List (List UInt8)
  | 0, _ => []
  | fuel + 1, l => if l = [] then [] else l.take BSIZE :: chunks fuel (l.drop BSIZE)

/-- The body of the loop of `main` over the host files. -/
def addFile (rootino : ℕ) (file : List UInt8 × List UInt8) : MkM Unit := do
  if slash ∈ file.1 then
    throw .assert
  else do
    let name := if file.1.head? = some 95 then file.1.tail else file.1
    let inum ← ialloc T_FILE
    iappend rootino (direntBytes inum (cstr name))
    forM (chunks file.2.length file.2) (iappend inum)

/-- `main` on host files with the given names and contents. -/
def main (files : List (List UInt8 × List UInt8)) : MkM Unit := do
  forM (List.range FSSIZE) fun i => wsect i zeroBlock
  wsect 1 (Bytes.write Superblock.codec zeroBlock 0 sb)
  let rootino ← ialloc T_DIR
  if rootino ≠ ROOTINO then throw .assert
  iappend rootino (direntBytes rootino dot)
  iappend rootino (direntBytes rootino dotdot)
  forM files (addFile rootino)
  let d ← rinode rootino
  let off := (d.size.toNat / BSIZE + 1) * BSIZE
  winode rootino { d with size := UInt32.ofNat off }
  balloc (← get).freeblock

/-- The state `main` starts in. -/
def start : State where
  len := 0
  img := fun _ => zeroBlock
  freeinode := 1
  freeblock := nmeta

end Mkfs

/-- An unused slot of the inode cache. -/
def Inode.unused : Inode := ⟨0, 0, 0, false, false, Dinode.zero⟩

/-- The state of the kernel once it is up on an image : process `0` has the root
directory as current directory. -/
def bootState (img : ℕ → Block) (devices : Devices) (stack : ℕ → UInt8) : FS where
  disk := img
  sb := readsb img
  log := ⟨(readsb img).nlog.toNat, 0, [], []⟩
  icache k := if k.val = 0 then { Inode.unused with dev := ROOTDEV, inum := ROOTINO, ref := 1 }
    else Inode.unused
  ftable _ := ⟨.none, 0, false, false, 0, 0, 0⟩
  procs p := ⟨if p.val = 0 then some 0 else none, fun _ => none⟩
  devices := devices
  stack := stack

end Xv6
