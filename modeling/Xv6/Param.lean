import Mathlib.Data.Fin.VecNotation
import Mathlib.Data.Fintype.Pi
import Mathlib.Logic.Function.Basic
import Xv6.Lib.Codec

/-!
# Parameters and the on-disk format

The constants of `param.h`, `fs.h`, `stat.h` and `fcntl.h`, and the structs that lie in
disk blocks with their byte layouts. A block is `BSIZE` bytes, so a struct in a block is
read and written through its codec at its byte offset, as the kernel does by casting
`bp->data`.
-/

open Layout

namespace Xv6

instance neZero_two : NeZero 2 := ⟨by decide⟩

/-! ## `param.h` -/

/-- Number of process slots. -/
abbrev NPROC : ℕ := 64
instance neZero_NPROC : NeZero NPROC := ⟨by decide⟩
/-- Most processors. -/
abbrev NCPU : ℕ := 8
/-- Open files of a process. -/
abbrev NOFILE : ℕ := 16
/-- Open files of the system. -/
abbrev NFILE : ℕ := 100
/-- Slots of the inode cache. -/
abbrev NINODE : ℕ := 50
instance neZero_NINODE : NeZero NINODE := ⟨by decide⟩
/-- Number of major device numbers. -/
abbrev NDEV : ℕ := 10
/-- Device of the root file system. -/
abbrev ROOTDEV : ℕ := 1
/-- Most blocks a file-system operation writes. -/
abbrev MAXOPBLOCKS : ℕ := 10
/-- Most data blocks in the on-disk log. -/
abbrev LOGSIZE : ℕ := MAXOPBLOCKS * 3
/-- Blocks of the file system `mkfs` makes. -/
abbrev FSSIZE : ℕ := 1000

/-! ## `fs.h` -/

/-- Inode number of the root directory. -/
abbrev ROOTINO : ℕ := 1
/-- Bytes of a block. -/
abbrev BSIZE : ℕ := 512
/-- Direct block addresses of an inode. -/
abbrev NDIRECT : ℕ := 12
/-- Block addresses in an indirect block. -/
abbrev NINDIRECT : ℕ := BSIZE / 4
/-- Most blocks of a file. -/
abbrev MAXFILE : ℕ := NDIRECT + NINDIRECT
/-- Bytes of a file name. -/
abbrev DIRSIZ : ℕ := 14
/-- Bitmap bits in a block. -/
abbrev BPB : ℕ := BSIZE * 8

abbrev Block := Bytes BSIZE

/-- The block `memset` fills with zeroes. -/
def zeroBlock : Block := fun _ => 0

/-- The disk after block `b` is set to `data`. -/
def setBlock (disk : ℕ → Block) (b : ℕ) (data : Block) : ℕ → Block :=
  force b fun b => Function.update disk b data

@[simp] theorem setBlock_eq (disk : ℕ → Block) (b : ℕ) (data : Block) :
    setBlock disk b data = Function.update disk b data :=
  force_eq b _

/-- The layout of the disk, in block 1. -/
structure Superblock where
  size : UInt32
  nblocks : UInt32
  ninodes : UInt32
  nlog : UInt32
  logstart : UInt32
  inodestart : UInt32
  bmapstart : UInt32
  deriving DecidableEq

/-- `struct superblock` in bytes. -/
def Superblock.codec : Codec Superblock :=
  (Codec.u32.array 7).retract
    (fun b => ![b.size, b.nblocks, b.ninodes, b.nlog, b.logstart, b.inodestart, b.bmapstart])
    (fun v => ⟨v 0, v 1, v 2, v 3, v 4, v 5, v 6⟩) (fun _ => rfl)

/-- The on-disk inode. -/
structure Dinode where
  /-- File type, `0` for a free inode. -/
  type : Int16
  major : Int16
  minor : Int16
  nlink : Int16
  size : UInt32
  /-- Data block addresses : the direct blocks, then the indirect block. -/
  addrs : Fin (NDIRECT + 1) → UInt32
  deriving DecidableEq

/-- `struct dinode` in bytes. -/
def Dinode.codec : Codec Dinode :=
  (Codec.i16.prod (Codec.i16.prod (Codec.i16.prod (Codec.i16.prod
    (Codec.u32.prod (Codec.u32.array (NDIRECT + 1))))))).retract
    (fun d => (d.type, d.major, d.minor, d.nlink, d.size, d.addrs))
    (fun t => ⟨t.1, t.2.1, t.2.2.1, t.2.2.2.1, t.2.2.2.2.1, t.2.2.2.2.2⟩) (fun _ => rfl)

/-- The inode `memset` fills with zeroes. -/
def Dinode.zero : Dinode := ⟨0, 0, 0, 0, 0, fun _ => 0⟩

/-- The block address in slot `i` of `addrs`, `0` past its end. -/
def Dinode.addr (d : Dinode) (i : ℕ) : ℕ :=
  if h : i < NDIRECT + 1 then (d.addrs ⟨i, h⟩).toNat else 0

/-- `d->addrs[i] = a`. -/
def Dinode.setAddr (d : Dinode) (i a : ℕ) : Dinode :=
  { d with addrs := fun j => if j.val = i then UInt32.ofNat a else d.addrs j }

/-- Inodes per block. -/
abbrev IPB : ℕ := BSIZE / 64

/-- A directory entry. A free entry has inode number `0`. -/
structure Dirent where
  inum : UInt16
  /-- The name, padded with zeroes, with no terminator when it has `DIRSIZ` bytes. -/
  name : Fin DIRSIZ → UInt8
  deriving DecidableEq

/-- `struct dirent` in bytes. -/
def Dirent.codec : Codec Dirent :=
  (Codec.u16.prod (Codec.u8.array DIRSIZ)).retract (fun d => (d.inum, d.name))
    (fun t => ⟨t.1, t.2⟩) (fun _ => rfl)

/-- Bytes of a directory entry. -/
abbrev DIRENT : ℕ := 16

/-- Block of inode `i`. -/
def IBLOCK (i : ℕ) (sb : Superblock) : ℕ :=
  i / IPB + sb.inodestart.toNat

/-- Block of the bitmap bit of block `b`. -/
def BBLOCK (b : ℕ) (sb : Superblock) : ℕ :=
  b / BPB + sb.bmapstart.toNat

/-! ## `stat.h` and `fcntl.h` -/

abbrev T_DIR : Int16 := 1
abbrev T_FILE : Int16 := 2
abbrev T_DEV : Int16 := 3

abbrev O_RDONLY : UInt32 := 0x000
abbrev O_WRONLY : UInt32 := 0x001
abbrev O_RDWR : UInt32 := 0x002
/-- Create the file. -/
abbrev O_CREATE : UInt32 := 0x200

end Xv6
