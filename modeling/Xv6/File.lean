import Xv6.Fs

/-!
# `file.c`

Open files : the functions of `file.c` as programs on `FS`. One turn of the loop of
`filewrite` is `filewriteChunk`, since it is a transaction of its own.
-/

open Prog Layout

namespace Xv6

def modifyFile (f : Fptr) (g : File → File) : M Unit :=
  modify fun s => { s with ftable := Function.update s.ftable f (g (s.ftable f)) }

def filealloc : M (Option Fptr) := do
  let s ← get
  match (List.finRange NFILE).find? fun f => (s.ftable f).ref == 0 with
  | some f =>
    modifyFile f fun f => { f with ref := 1 }
    return some f
  | none => return none

def filedup (f : Fptr) : M Fptr := do
  let s ← get
  if (s.ftable f).ref < 1 then
    panic "filedup"
  else do
    modifyFile f fun f => { f with ref := f.ref + 1 }
    return f

/-- `fileclose`. Closing an end of a pipe touches no file-system state. -/
def fileclose (f : Fptr) : M Unit := do
  let s ← get
  let ff := s.ftable f
  if ff.ref < 1 then
    panic "fileclose"
  else if ff.ref - 1 > 0 then
    modifyFile f fun f => { f with ref := f.ref - 1 }
  else do
    modifyFile f fun f => { f with ref := 0, type := .none }
    match ff.type with
    | .inode =>
      beginOp
      iput ff.ip
      endOp
    | .pipe => return ()
    | .none => return ()

/-- `fileread`, with the bytes it copies; `none` is the result `-1`. -/
def fileread (f : Fptr) (n : UInt32) : M (Option (List UInt8)) := do
  let s ← get
  let ff := s.ftable f
  if ff.readable = false then
    return none
  else
    match ff.type with
    | .pipe => return s.devices.piperead ff.pipe n.toNat
    | .inode =>
      ilock ff.ip
      let r ← readi ff.ip ff.off n
      match r with
      | some bytes =>
        if bytes.length > 0 then
          modifyFile f fun f => { f with off := f.off + UInt32.ofNat bytes.length }
      | none => pure ()
      iunlock ff.ip
      return r
    | .none => panic "fileread"

/-- Most bytes `filewrite` writes in one transaction. -/
def filewriteMax : ℕ :=
  ((LOGSIZE - 1 - 1 - 2) / 2) * 512

/-- One turn of the loop of `filewrite`, from `begin_op` to `end_op` : write the `n1`
bytes at `src`. -/
def filewriteChunk (f : Fptr) (src : ℕ → UInt8) (n1 : ℕ) : M (Option ℕ) := do
  beginOp
  let ip := ((← get).ftable f).ip
  ilock ip
  let r ← writei ip src ((← get).ftable f).off (UInt32.ofNat n1)
  match r with
  | some r =>
    if r > 0 then
      modifyFile f fun f => { f with off := f.off + UInt32.ofNat r }
  | none => pure ()
  iunlock ip
  endOp
  return r

/-- The loop of `filewrite` with `i` bytes of `n` done, in at most `fuel` turns. It
returns the `i` it ends with. -/
def filewriteLoop (f : Fptr) (src : ℕ → UInt8) (n : ℤ) : ℕ → ℕ → M ℕ
  | 0, i => return i
  | fuel + 1, i =>
    if n ≤ i then
      return i
    else do
      let n1 := min (n - i).toNat filewriteMax
      match ← filewriteChunk f (fun j => src (i + j)) n1 with
      | none => return i
      | some r =>
        if r ≠ n1 then panic "short filewrite" else filewriteLoop f src n fuel (i + r)

/-- `filewrite`; `none` is the result `-1`. Every turn of the loop writes a byte at least,
so `n` turns are enough. -/
def filewrite (f : Fptr) (src : ℕ → UInt8) (n : ℤ) : M (Option ℤ) := do
  let s ← get
  let ff := s.ftable f
  if ff.writable = false then
    return none
  else
    match ff.type with
    | .pipe => return (s.devices.pipewrite ff.pipe src n.toNat).map (↑)
    | .inode =>
      let i ← filewriteLoop f src n n.toNat 0
      return if (i : ℤ) = n then some n else none
    | .none => panic "filewrite"

end Xv6
