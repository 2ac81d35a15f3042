import Xv6.State

/-!
# Virtual memory

`kalloc.c` and `vm.c` on physical memory. Memory is pages of words, and page directories and
page tables are pages like any other : `walkpgdir` reads a directory entry and a table entry
from them, so a stray write into a page table changes the address space it belongs to.

Addresses that the source keeps page aligned are page numbers here, physical or virtual; the page
directory index and page table index are the quotient and the remainder by `NPTENTRIES`. `kalloc`
fails where the list of free pages is empty, and also where `fails` says so, which stands for the
pages that other processes hold just then.

`loaduvm` and `uva2ka` leave a record (`Event`) : what was copied from the file and where,
and a page table that was not there.
-/

open Function Layout

namespace Xv6.Vm

/-! ## `mmu.h` and `memlayout.h` -/

/-- Bytes of a page. -/
abbrev PGSIZE : ℕ := 4096
/-- Entries of a page table and of a page directory. -/
abbrev NPTENTRIES : ℕ := 1024
/-- First address of the kernel. -/
abbrev KERNBASE : UInt32 := 0x80000000
/-- Page number of `KERNBASE`. -/
abbrev KERNPAGE : ℕ := 0x80000
/-- Page number of `EXTMEM`. -/
abbrev EXTMEM : ℕ := 0x100
/-- Page number of `PHYSTOP`. -/
abbrev PHYSTOP : ℕ := 0xE000
/-- Page number of `DEVSPACE`. -/
abbrev DEVSPACE : ℕ := 0xFE000
/-- Number of virtual pages. -/
abbrev NPAGES : ℕ := 0x100000

abbrev PTE_P : UInt32 := 1
abbrev PTE_W : UInt32 := 2
abbrev PTE_U : UInt32 := 4

/-- The symbols the linker script defines, as page numbers : where the data of the kernel
starts, and the first page after the kernel. -/
structure Link where
  data : ℕ
  kend : ℕ
  data_lt : EXTMEM < data
  data_le : data ≤ kend
  kend_lt : kend < 1024

/-- `*pte & PTE_P`. -/
def present (w : UInt32) : Bool :=
  w &&& PTE_P != 0

/-- `*pte & PTE_U`. -/
def user (w : UInt32) : Bool :=
  w &&& PTE_U != 0

/-- The page of `PTE_ADDR(*pte)`. -/
def frame (w : UInt32) : ℕ :=
  w.toNat / PGSIZE

/-- `PTE_FLAGS(*pte)`. -/
def flags (w : UInt32) : UInt32 :=
  w &&& 0xFFF

/-- `pa | perm | PTE_P` for the address `pa` of page `x`. -/
def entry (x : ℕ) (perm : UInt32) : UInt32 :=
  UInt32.ofNat (x * PGSIZE) ||| perm ||| PTE_P

/-- The page directory index of page `n`. -/
def PDX (n : ℕ) : ℕ :=
  n / NPTENTRIES

/-- The page table index of page `n`. -/
def PTX (n : ℕ) : ℕ :=
  n % NPTENTRIES

/-- The page `va` lies in. -/
def page (va : UInt32) : ℕ :=
  va.toNat / PGSIZE

/-- The first page at or after `sz`. -/
def pageUp (sz : UInt32) : ℕ :=
  (sz.toNat + PGSIZE - 1) / PGSIZE

/-! ## State -/

/-- `struct proghdr`, as far as `exec` reads it. -/
structure Proghdr where
  type : UInt32
  off : UInt32
  vaddr : UInt32
  filesz : UInt32
  memsz : UInt32
  deriving DecidableEq

/-- A copy of `loaduvm` : `len` bytes to `va`, for segment `ph` of an image of `sz` bytes so
far, through the page table entry `pte`. -/
structure Copy where
  ph : Proghdr
  sz : UInt32
  va : UInt32
  len : ℕ
  pte : UInt32
  deriving DecidableEq

/-- What happened on the way. -/
inductive Event where
  | copy (c : Copy)
  /-- `uva2ka` followed a null pointer. -/
  | null
  deriving DecidableEq

/-- Physical memory and its allocator. -/
structure Mem where
  /-- The words of the pages. -/
  word : ℕ → ℕ → UInt32
  freelist : List ℕ
  /-- Whether the next calls of `kalloc` find no page. -/
  fails : List Bool
  /-- What happened so far, the last first. -/
  log : List Event

/-- Programs on memory. -/
abbrev M := EStateM Stop Mem

def Mem.set (v : Mem) (x i : ℕ) (w : UInt32) : Mem :=
  { v with word := update v.word x (update (v.word x) i w) }

def Mem.fill (v : Mem) (x : ℕ) (p : ℕ → UInt32) : Mem :=
  { v with word := update v.word x p }

/-- The words `p` of a page after `len` bytes at `off` are overwritten. -/
def poke (p : ℕ → UInt32) (off len : ℕ) (data : ℕ → UInt8) (i : ℕ) : UInt32 :=
  Codec.u32.ofByte fun k =>
    if off ≤ 4 * i + k ∧ 4 * i + k < off + len then data (4 * i + k - off)
    else Codec.u32.toByte (p i) k

/-! ## `kalloc.c` -/

def kalloc : M (Option ℕ) := do
  let v ← get
  match v.fails.headD false, v.freelist with
  | false, x :: l => do
    set { v with freelist := l, fails := v.fails.tail }
    return some x
  | _, _ => do
    set { v with fails := v.fails.tail }
    return none

def kfree (K : Link) (x : ℕ) : M Unit := do
  if x < K.kend ∨ PHYSTOP ≤ x then throw (.panic "kfree")
  modify fun v => { v.fill x fun _ => 0x01010101 with freelist := x :: v.freelist }

/-! ## `vm.c` -/

/-- `walkpgdir` : the page and the index of the entry for page `n`. -/
def walkpgdir (d n : ℕ) (alloc : Bool) : M (Option (ℕ × ℕ)) := do
  let pde := (← get).word d (PDX n)
  if present pde then return some (frame pde, PTX n)
  if alloc = false then return none
  match ← kalloc with
  | none => return none
  | some t => do
    modify fun v => (v.fill t fun _ => 0).set d (PDX n) (entry t (PTE_W ||| PTE_U))
    return some (t, PTX n)

/-- `mappages` for `count` pages from page `n`, to the physical pages from `x`. -/
def mappages (d : ℕ) (perm : UInt32) : ℕ → ℕ → ℕ → M Bool
  | 0, _, _ => return true
  | count + 1, n, x => do
    match ← walkpgdir d n true with
    | none => return false
    | some (t, j) => do
      if present ((← get).word t j) then throw (.panic "remap")
      modify fun v => v.set t j (entry x perm)
      mappages d perm count (n + 1) (x + 1)

/-- `struct kmap`. -/
structure Kmap where
  virt : ℕ
  phys_start : ℕ
  phys_end : ℕ
  perm : UInt32

def kmap (K : Link) : List Kmap :=
  [⟨KERNPAGE, 0, EXTMEM, PTE_W⟩, ⟨KERNPAGE + EXTMEM, EXTMEM, K.data, 0⟩,
    ⟨KERNPAGE + K.data, K.data, PHYSTOP, PTE_W⟩, ⟨DEVSPACE, DEVSPACE, 0, PTE_W⟩]

/-- `phys_end - phys_start`, in pages. -/
def Kmap.size (k : Kmap) : ℕ :=
  (k.phys_end + NPAGES - k.phys_start) % NPAGES

/-- The loop of `setupkvm`. -/
def mapAll (d : ℕ) : List Kmap → M Bool
  | [] => return true
  | k :: ks => do
    if ← mappages d k.perm k.size k.virt k.phys_start then mapAll d ks else return false

def setupkvm (K : Link) : M (Option ℕ) := do
  match ← kalloc with
  | none => return none
  | some d => do
    modify fun v => v.fill d fun _ => 0
    if ← mapAll d (kmap K) then return some d else return none

/-- The loop of `deallocuvm` from page `n` on, to page `last`. -/
def deallocLoop (K : Link) (d last : ℕ) : ℕ → ℕ → M Unit
  | 0, _ => return ()
  | fuel + 1, n => do
    if n < last then
      match ← walkpgdir d n false with
      | none => deallocLoop K d last fuel (n + NPTENTRIES)
      | some (t, j) => do
        let pte := (← get).word t j
        if present pte then
          if frame pte = 0 then throw (.panic "kfree")
          kfree K (frame pte)
          modify fun v => v.set t j 0
        deallocLoop K d last fuel (n + 1)

def deallocuvm (K : Link) (d : ℕ) (oldsz newsz : UInt32) : M UInt32 := do
  if newsz ≥ oldsz then return oldsz
  deallocLoop K d (pageUp oldsz) (pageUp oldsz) (pageUp newsz)
  return newsz

/-- The loop of `allocuvm` for `count` pages from page `n`. -/
def allocLoop (K : Link) (d : ℕ) (oldsz newsz : UInt32) : ℕ → ℕ → M Bool
  | 0, _ => return true
  | count + 1, n => do
    match ← kalloc with
    | none => do
      let _ ← deallocuvm K d newsz oldsz
      return false
    | some x => do
      modify fun v => v.fill x fun _ => 0
      let _ ← mappages d (PTE_W ||| PTE_U) 1 n x
      allocLoop K d oldsz newsz count (n + 1)

def allocuvm (K : Link) (d : ℕ) (oldsz newsz : UInt32) : M UInt32 := do
  if newsz ≥ KERNBASE then return 0
  if newsz < oldsz then return oldsz
  if ← allocLoop K d oldsz newsz (pageUp newsz - pageUp oldsz) (pageUp oldsz) then return newsz
  else return 0

/-- The loop of `freevm` over the page directory. -/
def freeTables (K : Link) (d : ℕ) : List ℕ → M Unit
  | [] => return ()
  | i :: is => do
    let pde := (← get).word d i
    if present pde then kfree K (frame pde)
    freeTables K d is

def freevm (K : Link) (d : ℕ) : M Unit := do
  let _ ← deallocuvm K d KERNBASE 0
  freeTables K d (List.range NPTENTRIES)
  kfree K d

/-- `clearpteu` for page `n`. -/
def clearpteu (d n : ℕ) : M Unit := do
  match ← walkpgdir d n false with
  | none => throw (.panic "clearpteu")
  | some (t, j) => modify fun v => v.set t j (v.word t j &&& ~~~PTE_U)

/-- The loop of `copyuvm` for `count` pages from page `n`. -/
def copyLoop (d d' : ℕ) : ℕ → ℕ → M Bool
  | 0, _ => return true
  | count + 1, n => do
    match ← walkpgdir d n false with
    | none => throw (.panic "copyuvm: pte should exist")
    | some (t, j) => do
      let pte := (← get).word t j
      if present pte = false then throw (.panic "copyuvm: page not present")
      match ← kalloc with
      | none => return false
      | some x => do
        modify fun v => v.fill x (v.word (frame pte))
        if ← mappages d' (flags pte) 1 n x then copyLoop d d' count (n + 1) else return false

def copyuvm (K : Link) (d : ℕ) (sz : UInt32) : M (Option ℕ) := do
  match ← setupkvm K with
  | none => return none
  | some d' => do
    if ← copyLoop d d' (pageUp sz) 0 then return some d'
    freevm K d'
    return none

/-- `*pte` for a null pointer, with `cur` the page directory in use : the word at address 0,
if there is a page. -/
def derefNull (cur : ℕ) : M UInt32 := do
  modify fun v => { v with log := .null :: v.log }
  match ← walkpgdir cur 0 false with
  | none => throw (.panic "trap")
  | some (t, j) => do
    let pte := (← get).word t j
    if present pte = false then throw (.panic "trap")
    return (← get).word (frame pte) 0

/-- `*walkpgdir(pgdir, uva, 0)`. -/
def readPte (cur d n : ℕ) : M UInt32 := do
  match ← walkpgdir d n false with
  | none => derefNull cur
  | some (t, j) => return (← get).word t j

/-- `uva2ka` for page `n` of `d`. The address it returns, `p2v` of that of a physical page, stands
for this page; it is a null pointer for the page `KERNPAGE`, where `p2v` wraps around. -/
def uva2ka (cur d n : ℕ) : M (Option ℕ) := do
  let pte ← readPte cur d n
  if present pte = false then return none
  if user pte = false then return none
  if frame pte = KERNPAGE then return none
  return some (frame pte)

/-- The loop of `copyout`, for `len` bytes. -/
def copyoutLoop (cur d : ℕ) : ℕ → UInt32 → ℕ → (ℕ → UInt8) → M Bool
  | 0, _, _, _ => return true
  | fuel + 1, va, len, buf => do
    if len = 0 then return true
    match ← uva2ka cur d (page va) with
    | none => return false
    | some x => do
      -- the kernel maps the physical pages below `PHYSTOP` at `p2v`, and no others
      if PHYSTOP ≤ x then throw (.panic "trap")
      let off := va.toNat % PGSIZE
      let n := min (PGSIZE - off) len
      modify fun v => v.fill x (poke (v.word x) off n buf)
      copyoutLoop cur d fuel (UInt32.ofNat ((page va + 1) * PGSIZE)) (len - n) fun j => buf (n + j)

def copyout (cur d : ℕ) (va : UInt32) (bytes : List UInt8) : M Bool :=
  copyoutLoop cur d bytes.length va bytes.length fun j => bytes.getD j 0

/-- A file. -/
structure Image where
  size : ℕ
  byte : ℕ → UInt8
  size_le : size ≤ MAXFILE * BSIZE

/-- The number of bytes `readi` copies of the `n` at `off`. -/
def Image.readi (f : Image) (off : UInt32) (n : ℕ) : ℕ :=
  if f.size < off.toNat ∨ 2 ^ 32 ≤ off.toNat + n then 0 else min n (f.size - off.toNat)

/-- The loop of `loaduvm` for `count` pages from byte `i` of the segment on. -/
def loadLoop (d : ℕ) (f : Image) (ph : Proghdr) (sz : UInt32) : ℕ → ℕ → M Bool
  | 0, _ => return true
  | count + 1, i => do
    let va := ph.vaddr + UInt32.ofNat i
    match ← walkpgdir d (page va) false with
    | none => throw (.panic "loaduvm: address should exist")
    | some (t, j) => do
      let pte := (← get).word t j
      let n := min (ph.filesz.toNat - i) PGSIZE
      let off := ph.off + UInt32.ofNat i
      let m := f.readi off n
      modify fun v =>
        { v.fill (frame pte) (poke (v.word (frame pte)) 0 m fun j => f.byte (off.toNat + j)) with
          log := .copy ⟨ph, sz, va, m, pte⟩ :: v.log }
      if m = n then loadLoop d f ph sz count (i + PGSIZE) else return false

/-- `loaduvm` of segment `ph`, for an image of `sz` bytes so far. -/
def loaduvm (d : ℕ) (f : Image) (ph : Proghdr) (sz : UInt32) : M Bool := do
  if ph.vaddr.toNat % PGSIZE ≠ 0 then throw (.panic "loaduvm: addr must be page aligned")
  loadLoop d f ph sz (pageUp ph.filesz) 0

end Xv6.Vm
