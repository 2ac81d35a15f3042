import Xv6.State

/-!
# `fs.c`

The functions of `fs.c` as programs on `FS`, under their names : the block allocator,
inodes and the inode cache, inode content, directories and path names. A loop of the
source is a recursion over the list of the values its counter takes, or over a bound on
its number of turns.
-/

open Prog Layout

namespace Xv6

/-! ## Blocks -/

def readsb (disk : ℕ → Block) : Superblock :=
  Bytes.read Superblock.codec (disk 1) 0

def bzero (bno : ℕ) : M Unit :=
  logWrite bno zeroBlock

/-- `1 << (bi % 8)`. -/
def bitMask (bi : ℕ) : UInt8 :=
  1 <<< UInt8.ofNat (bi % 8)

/-- `(data[bi/8] & m) == 0`. -/
def isClear (data : Block) (bi : ℕ) : Bool :=
  data.get (bi / 8) &&& bitMask bi == 0

/-- `data[bi/8] |= m`. -/
def setBit (data : Block) (bi : ℕ) : Block :=
  data.blit (bi / 8) 1 fun _ => data.get (bi / 8) ||| bitMask bi

/-- `data[bi/8] &= ~m`. -/
def clearBit (data : Block) (bi : ℕ) : Block :=
  data.blit (bi / 8) 1 fun _ => data.get (bi / 8) &&& ~~~bitMask bi

/-- The inner loop of `balloc` over the bitmap block of block `b`. -/
def ballocScanBlock (data : Block) (size b : ℕ) : Option ℕ :=
  ((List.range BPB).find? fun bi => decide (b + bi < size) && isClear data bi).map (b + ·)

/-- The loops of `balloc` : the block whose clear bit they stop at. -/
def ballocScan (disk : ℕ → Block) (sb : Superblock) : Option ℕ :=
  (List.range ((sb.size.toNat + BPB - 1) / BPB)).findSome? fun q =>
    ballocScanBlock (disk (BBLOCK (q * BPB) sb)) sb.size.toNat (q * BPB)

def balloc : M ℕ := do
  let s ← get
  match ballocScan s.disk s.sb with
  | some b =>
    logWrite (BBLOCK b s.sb) (setBit (s.disk (BBLOCK b s.sb)) (b % BPB))
    bzero b
    return b
  | none => panic "balloc: out of blocks"

def bfree (b : ℕ) : M Unit := do
  modify fun s => { s with sb := readsb s.disk }
  let s ← get
  let data ← bread (BBLOCK b s.sb)
  if isClear data (b % BPB) then
    panic "freeing free block"
  else
    logWrite (BBLOCK b s.sb) (clearBit data (b % BPB))

/-! ## Inodes -/

/-- The disk inode `i`. -/
def dinode (disk : ℕ → Block) (sb : Superblock) (i : ℕ) : Dinode :=
  Bytes.read Dinode.codec (disk (IBLOCK i sb)) (64 * (i % IPB))

/-- The block of inode `i` with `d` stored in it. -/
def putDinode (disk : ℕ → Block) (sb : Superblock) (i : ℕ) (d : Dinode) : Block :=
  Bytes.write Dinode.codec (disk (IBLOCK i sb)) (64 * (i % IPB)) d

def modifyInode (k : Iptr) (f : Inode → Inode) : M Unit :=
  modify fun s => { s with icache := Function.update s.icache k (f (s.icache k)) }

/-- Change the in-memory copy of the disk inode in slot `k`. -/
def modifyDin (k : Iptr) (f : Dinode → Dinode) : M Unit :=
  modifyInode k fun ip => { ip with din := f ip.din }

def iget (dev inum : ℕ) : M Iptr := force inum fun inum => do
  let s ← get
  match cachedSlot s.icache dev inum with
  | some k =>
    modifyInode k fun ip => { ip with ref := ip.ref + 1 }
    return k
  | none =>
    match emptySlot s.icache with
    | some k =>
      modifyInode k fun ip =>
        { ip with dev := dev, inum := inum, ref := 1, busy := false, valid := false }
      return k
    | none => panic "iget: no inodes"

def ialloc (dev : ℕ) (type : Int16) : M Iptr := do
  let s ← get
  match (List.range s.sb.ninodes.toNat).find? fun inum =>
      decide (1 ≤ inum) && (dinode s.disk s.sb inum).type == 0 with
  | some inum =>
    logWrite (IBLOCK inum s.sb) (putDinode s.disk s.sb inum { Dinode.zero with type := type })
    iget dev inum
  | none => panic "ialloc: no inodes"

def iupdate (k : Iptr) : M Unit := do
  let s ← get
  let ip := s.icache k
  logWrite (IBLOCK ip.inum s.sb) (putDinode s.disk s.sb ip.inum ip.din)

def idup (k : Iptr) : M Iptr := do
  modifyInode k fun ip => { ip with ref := ip.ref + 1 }
  return k

def ilock (k : Iptr) : M Unit := do
  let s ← get
  if (s.icache k).ref < 1 then
    panic "ilock"
  else if (s.icache k).busy then
    throw .sleep
  else do
    modifyInode k fun ip => { ip with busy := true }
    if (s.icache k).valid then
      return ()
    else do
      let d := dinode s.disk s.sb (s.icache k).inum
      modifyInode k fun ip => { ip with din := d, valid := true }
      if d.type = 0 then panic "ilock: no type" else return ()

def iunlock (k : Iptr) : M Unit := do
  let s ← get
  if (s.icache k).busy = false ∨ (s.icache k).ref < 1 then
    panic "iunlock"
  else
    modifyInode k fun ip => { ip with busy := false }

/-! ## Inode content -/

/-- Word `j` of an indirect block. -/
def indWord (data : Block) (j : ℕ) : ℕ :=
  (Bytes.read Codec.u32 data (4 * j)).toNat

def bmap (k : Iptr) (bn : ℕ) : M ℕ := do
  let s ← get
  if bn < NDIRECT then
    let addr := (s.icache k).din.addr bn
    if addr = 0 then do
      let addr ← balloc
      modifyDin k fun d => d.setAddr bn addr
      return addr
    else
      return addr
  else if bn - NDIRECT < NINDIRECT then do
    -- Load the indirect block, allocating it if necessary.
    let ind ← do
      let addr := (s.icache k).din.addr NDIRECT
      if addr = 0 then do
        let addr ← balloc
        modifyDin k fun d => d.setAddr NDIRECT addr
        pure addr
      else
        pure addr
    let addr := indWord (← bread ind) (bn - NDIRECT)
    if addr = 0 then do
      let addr ← balloc
      let data ← bread ind
      logWrite ind (Bytes.write Codec.u32 data (4 * (bn - NDIRECT)) (UInt32.ofNat addr))
      return addr
    else
      return addr
  else
    panic "bmap: out of range"

def itrunc (k : Iptr) : M Unit := do
  forM (List.range NDIRECT) fun i => do
    let s ← get
    let addr := (s.icache k).din.addr i
    if addr = 0 then
      return ()
    else do
      bfree addr
      modifyDin k fun d => d.setAddr i 0
  let s ← get
  let ind := (s.icache k).din.addr NDIRECT
  if ind = 0 then
    pure ()
  else do
    let a ← bread ind
    forM (List.range NINDIRECT) fun j =>
      if indWord a j = 0 then pure () else bfree (indWord a j)
    bfree ind
    modifyDin k fun d => d.setAddr NDIRECT 0
  modifyDin k fun d => { d with size := 0 }
  iupdate k

def iput (k : Iptr) : M Unit := do
  let s ← get
  let ip := s.icache k
  if ip.ref = 1 ∧ ip.valid = true ∧ ip.din.nlink = 0 then
    if ip.busy then
      panic "iput busy"
    else do
      modifyInode k fun ip => { ip with busy := true }
      itrunc k
      modifyDin k fun d => { d with type := 0 }
      iupdate k
      modifyInode k fun ip => { ip with busy := false, valid := false }
  modifyInode k fun ip => { ip with ref := ip.ref - 1 }

def iunlockput (k : Iptr) : M Unit := do
  iunlock k
  iput k

/-- The loop of `readi` at offset `off` with `rem` bytes to go, in at most `fuel` turns. -/
def readiLoop (k : Iptr) : ℕ → ℕ → ℕ → M (List UInt8)
  | 0, _, _ => return []
  | fuel + 1, off, rem =>
    if rem = 0 then
      return []
    else do
      let data ← bread (← bmap k (off / BSIZE))
      let m := min rem (BSIZE - off % BSIZE)
      let rest ← readiLoop k fuel (off + m) (rem - m)
      return (List.range m).map (fun j => data.get (off % BSIZE + j)) ++ rest

/-- `readi`, with the bytes it copies to `dst`; `none` is the result `-1`. Every turn of
the loop copies a byte at least, so `n` turns are enough. -/
def readi (k : Iptr) (off n : UInt32) : M (Option (List UInt8)) := do
  let s ← get
  let d := (s.icache k).din
  if d.type = T_DEV then
    if d.major < 0 ∨ d.major.toInt ≥ NDEV then
      return none
    else
      match s.devices.devread d.major.toInt.toNat with
      | none => return none
      | some read => return read n.toNat
  else if off > d.size ∨ off + n < off then
    return none
  else
    let n := if off + n > d.size then d.size - off else n
    return some (← readiLoop k n.toNat off.toNat n.toNat)

/-- The loop of `writei` at offset `off` with `tot` bytes of `n` done, in at most `fuel`
turns. -/
def writeiLoop (k : Iptr) (src : ℕ → UInt8) (n : ℕ) : ℕ → ℕ → ℕ → M Unit
  | 0, _, _ => return ()
  | fuel + 1, off, tot =>
    if n ≤ tot then
      return ()
    else do
      let b ← bmap k (off / BSIZE)
      let data ← bread b
      let m := min (n - tot) (BSIZE - off % BSIZE)
      logWrite b (data.blit (off % BSIZE) m fun j => src (tot + j))
      writeiLoop k src n fuel (off + m) (tot + m)

/-- `writei`; `none` is the result `-1`. -/
def writei (k : Iptr) (src : ℕ → UInt8) (off n : UInt32) : M (Option ℕ) := do
  let s ← get
  let d := (s.icache k).din
  if d.type = T_DEV then
    if d.major < 0 ∨ d.major.toInt ≥ NDEV then
      return none
    else
      match s.devices.devwrite d.major.toInt.toNat with
      | none => return none
      | some write => return write src n.toNat
  else if off > d.size ∨ off + n < off then
    return none
  else if (off + n).toNat > MAXFILE * BSIZE then
    return none
  else do
    writeiLoop k src n.toNat n.toNat off.toNat 0
    if n > 0 ∧ off + n > d.size then
      modifyDin k fun d => { d with size := off + n }
      iupdate k
    return some n.toNat

/-! ## Directories -/

def namecmp (s t : ℕ → UInt8) : ℤ :=
  strncmp s t 0 DIRSIZ

/-- The bytes `de.name` points to. -/
def Dirent.cname (de : Dirent) : ℕ → UInt8 :=
  fun i => if h : i < DIRSIZ then de.name ⟨i, h⟩ else 0

/-- The offsets `0, sizeof(de), …` below `size`, from entry `e` on. -/
def direntOffsets (e size : ℕ) : List ℕ :=
  (List.range ((size + DIRENT - 1) / DIRENT - e)).map fun i => (e + i) * DIRENT

/-- `readi(dp, (char*)&de, off, sizeof(de)) != sizeof(de)` panics with `msg`. -/
def readDirent (dp : Iptr) (off : ℕ) (msg : String) : M Dirent := do
  match ← readi dp (UInt32.ofNat off) (UInt32.ofNat DIRENT) with
  | some bytes =>
    if bytes.length = DIRENT then
      return Dirent.codec.ofByte fun j => bytes.getD j 0
    else
      panic msg
  | none => panic msg

/-- `writei(dp, (char*)&de, off, sizeof(de)) != sizeof(de)` panics with `msg`. -/
def writeDirent (dp : Iptr) (off : ℕ) (de : Dirent) (msg : String) : M Unit := do
  match ← writei dp (Dirent.codec.toByte de) (UInt32.ofNat off) (UInt32.ofNat DIRENT) with
  | some n => if n = DIRENT then return () else panic msg
  | none => panic msg

/-- The loop of `dirlookup` over the remaining offsets. -/
def dirlookupLoop (dp : Iptr) (name : ℕ → UInt8) : List ℕ → M (Option (Iptr × ℕ))
  | [] => return none
  | off :: offs => do
    let de ← readDirent dp off "dirlink read"
    if de.inum = 0 then
      dirlookupLoop dp name offs
    else if namecmp name de.cname = 0 then do
      let s ← get
      let ip ← iget (s.icache dp).dev de.inum.toNat
      return some (ip, off)
    else
      dirlookupLoop dp name offs

/-- `dirlookup`, with the offset it stores in `*poff`. -/
def dirlookup (dp : Iptr) (name : ℕ → UInt8) : M (Option (Iptr × ℕ)) := do
  let s ← get
  if (s.icache dp).din.type ≠ T_DIR then
    panic "dirlookup not DIR"
  else
    dirlookupLoop dp name (direntOffsets 0 (s.icache dp).din.size.toNat)

/-- The loop of `dirlink` that looks for an empty entry, from offset `last` when none of
the remaining offsets has one. -/
def dirlinkLoop (dp : Iptr) (last : ℕ) : List ℕ → M ℕ
  | [] => return last
  | off :: offs => do
    let de ← readDirent dp off "dirlink read"
    if de.inum = 0 then return off else dirlinkLoop dp last offs

/-- `dirlink`; `false` is the result `-1`. -/
def dirlink (dp : Iptr) (name : ℕ → UInt8) (inum : ℕ) : M Bool := do
  match ← dirlookup dp name with
  | some (ip, _) =>
    iput ip
    return false
  | none =>
    let s ← get
    let size := (s.icache dp).din.size.toNat
    let off ← dirlinkLoop dp ((size + DIRENT - 1) / DIRENT * DIRENT) (direntOffsets 0 size)
    let de : Dirent := ⟨UInt16.ofNat inum, fun j => (strncpy name 0 DIRSIZ).getD j 0⟩
    writeDirent dp off de "dirlink"
    return true

/-! ## Paths -/

def slash : UInt8 := 47

/-- `skipelem`, with `name` as it leaves the buffer. The path is the string without its
terminator. -/
def skipelem (path : List UInt8) (name : ℕ → UInt8) : Option (List UInt8 × (ℕ → UInt8)) :=
  let path := path.dropWhile (· == slash)
  if path = [] then
    none
  else
    let s := path.takeWhile (· != slash)
    let rest := (path.dropWhile (· != slash)).dropWhile (· == slash)
    let name := fun i =>
      if DIRSIZ ≤ s.length then
        if i < DIRSIZ then s.getD i 0 else name i
      else
        if i < s.length then s.getD i 0 else if i = s.length then 0 else name i
    some (rest, name)

/-- The loop of `namex` from inode `ip`, in at most `fuel` turns. -/
def namexLoop (nameiparent : Bool) : ℕ → Iptr → List UInt8 → (ℕ → UInt8) →
    M (Option (Iptr × (ℕ → UInt8)))
  | 0, _, _, _ => return none
  | fuel + 1, ip, path, name =>
    match skipelem path name with
    | none =>
      if nameiparent then do
        iput ip
        return none
      else
        return some (ip, name)
    | some (path, name) => do
      ilock ip
      let s ← get
      if (s.icache ip).din.type ≠ T_DIR then
        iunlockput ip
        return none
      else if nameiparent ∧ path = [] then
        -- Stop one level early.
        iunlock ip
        return some (ip, name)
      else
        match ← dirlookup ip name with
        | none =>
          iunlockput ip
          return none
        | some (next, _) =>
          iunlockput ip
          namexLoop nameiparent fuel next path name

/-- `namex` of process `p`, with the last path element in `name`. Every turn of the loop
takes a character off the path at least, so one turn more than its length is enough. -/
def namex (p : Fin NPROC) (path : List UInt8) (nameiparent : Bool) :
    M (Option (Iptr × (ℕ → UInt8))) := do
  let s ← get
  let ip ←
    if path.head? = some slash then
      iget ROOTDEV ROOTINO
    else
      match (s.procs p).cwd with
      | some cwd => idup cwd
      | none => panic "trap"
  namexLoop nameiparent (path.length + 1) ip path s.stack

def namei (p : Fin NPROC) (path : List UInt8) : M (Option Iptr) := do
  return (← namex p path false).map Prod.fst

/-- `nameiparent`, with the last path element it stores in `name`. -/
def nameiparent (p : Fin NPROC) (path : List UInt8) : M (Option (Iptr × (ℕ → UInt8))) :=
  namex p path true

end Xv6
