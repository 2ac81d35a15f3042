import Xv6.IdeQueue

/-!
# The buffer cache

`binit`, `bget`, `bread`, `bwrite` and `brelse` of `bio.c`, and what `log_write` does to a
buffer, for any number of processes. A node of the list is a buffer or the head `none`.

What runs under `bcache.lock` is one step, up to `release` or `sleep`. A process that sleeps
in `bget` may be woken at any time, as the disk driver uses the same channel, and scans again.
`iderw` takes effect in one step, some time after the call : only the process that holds the
buffer sees it meanwhile. A process may hold any number of buffers and call what it likes, as
`write_log`, `write_head` and `install_trans` of `log.c` do.

Two fields of the state are a record of the run that no step reads : `stored` is what was last
stored for each block, through any buffer, and `unsaved` marks buffers that were changed since
the last `bwrite` or `log_write`.
-/

open Function

namespace Xv6.Bio

open Ide (Buf serve)

/-! ## State -/

/-- `-1`, the device of a buffer that caches nothing. -/
abbrev NODEV : ℕ := 2 ^ 32 - 1

/-- A device of the disk controller. -/
def Real (dev : ℕ) : Prop :=
  dev ≤ 1

instance (dev : ℕ) : Decidable (Real dev) :=
  inferInstanceAs (Decidable (dev ≤ 1))

/-- The links of the list of all buffers. -/
structure Links (β : Type) where
  next : Option β → Option β
  prev : Option β → Option β

/-- Where a process is. -/
inductive Pc (β : Type) where
  | out
  /-- In `sleep` of `bget`. -/
  | asleep (dev blockno : ℕ) (b : β)
  /-- In `sleep` of `bget`, and runnable. -/
  | runnable (dev blockno : ℕ)
  /-- In `iderw` of `bread`. -/
  | reading (dev blockno : ℕ) (b : β)
  /-- In `iderw` of `bwrite`. -/
  | writing (b : β)
  /-- In none of the calls, the last of which was `bread` and returned `b`. -/
  | got (dev blockno : ℕ) (b : β)
  deriving DecidableEq

/-- The process is in none of the calls. -/
def Pc.free {β : Type} : Pc β → Bool
  | .out | .got _ _ _ => true
  | _ => false

/-- The cache, the disk and the processes. -/
structure State (P β : Type) where
  links : Links β
  buf : β → Buf
  havedisk1 : Bool
  disk : ℕ → ℕ → Block
  pc : P → Pc β
  /-- The buffers a process got and has not released. -/
  holds : P → β → Bool
  stored : ℕ → ℕ → Block
  unsaved : β → Bool

variable {P β : Type} [DecidableEq P] [DecidableEq β] [Fintype β]

/-! ## The list of buffers -/

/-- `b->next = bcache.head.next; b->prev = &bcache.head; bcache.head.next->prev = b;
bcache.head.next = b`. -/
def Links.insert (L : Links β) (b : β) : Links β :=
  let next := update L.next (some b) (L.next none)
  let prev := update L.prev (some b) none
  let prev := update prev (next none) (some b)
  let next := update next none (some b)
  ⟨next, prev⟩

/-- `b->next->prev = b->prev; b->prev->next = b->next`. -/
def Links.remove (L : Links β) (b : β) : Links β :=
  let prev := update L.prev (L.next (some b)) (L.prev (some b))
  let next := update L.next (prev (some b)) (L.next (some b))
  ⟨next, prev⟩

/-- The list that `binit` makes of the buffers `bs`, in the order of the array. -/
def binit (bs : List β) : Links β :=
  bs.foldl Links.insert ⟨fun _ => none, fun _ => none⟩

/-- A loop over the list in one direction, from a node to the first buffer that meets a
condition. `none` is the head. -/
def scan (link : Option β → Option β) (p : β → Bool) : ℕ → Option β → Option (Option β)
  | 0, _ => none
  | _ + 1, none => some none
  | n + 1, some b => if p b then some (some b) else scan link p n (link (some b))

/-! ## Calls -/

/-- The buffer caches the block. -/
def caches (dev blockno : ℕ) (b : Buf) : Bool :=
  b.dev = dev && b.blockno = blockno

/-- A buffer that can be recycled. -/
def spare (b : Buf) : Bool :=
  !b.busy && !b.dirty

def State.setBuf (s : State P β) (b : β) (c : Buf) : State P β :=
  { s with buf := update s.buf b c }

def State.setPc (s : State P β) (p : P) (pc : Pc β) : State P β :=
  { s with pc := update s.pc p pc }

def State.setHolds (s : State P β) (p : P) (b : β) (h : Bool) : State P β :=
  { s with holds := update s.holds p (update (s.holds p) b h) }

/-- The rest of `bread` after `bget` returned `b` with content `c`. -/
def gotten (s : State P β) (p : P) (dev blockno : ℕ) (b : β) (c : Buf) : State P β :=
  ((s.setBuf b c).setHolds p b true).setPc p
    (if c.valid then .got dev blockno b else .reading dev blockno b)

/-- `bread` from `acquire` in `bget`, or after `sleep`; none where it panics. -/
def bread (s : State P β) (p : P) (dev blockno : ℕ) : Option (State P β) :=
  let n := Fintype.card β + 1
  match scan s.links.next (fun b => caches dev blockno (s.buf b)) n (s.links.next none) with
  | none => none
  | some (some b) =>
    if (s.buf b).busy then some (s.setPc p (.asleep dev blockno b))
    else some (gotten s p dev blockno b { s.buf b with busy := true })
  | some none =>
    match scan s.links.prev (fun b => spare (s.buf b)) n (s.links.prev none) with
    | some (some b) =>
      some (gotten s p dev blockno b
        { s.buf b with
          dev := dev, blockno := blockno, busy := true, valid := false, dirty := false })
    | _ => none

/-- `iderw`; none where it panics. -/
def iderw (s : State P β) (b : β) : Option (State P β) :=
  let c := s.buf b
  if ¬c.busy then none
  else if c.synced then none
  else if c.dev ≠ 0 ∧ ¬s.havedisk1 then none
  else if FSSIZE ≤ c.blockno then none
  else
    let r := serve (s.disk c.dev) c
    some { s.setBuf b r.2 with disk := update s.disk c.dev r.1 }

/-- `wakeup(b)` for the processes in `bget`. -/
def wakeup (s : State P β) (b : β) : State P β :=
  { s with
    pc := fun p =>
      match s.pc p with
      | .asleep dev blockno c => if c = b then .runnable dev blockno else .asleep dev blockno c
      | pc => pc }

/-- `brelse`; none where it panics. -/
def brelse (s : State P β) (p : P) (b : β) : Option (State P β) :=
  if ¬(s.buf b).busy then none
  else
    let s := { s with links := (s.links.remove b).insert b }
    let s := s.setBuf b { s.buf b with busy := false }
    some (wakeup ((s.setHolds p b false).setPc p .out) b)

/-- Steps. -/
inductive Label (P β : Type) where
  | bread (p : P) (dev blockno : ℕ)
  /-- A process that sleeps in `bget` is made runnable. -/
  | wake (p : P)
  /-- `bget` after `sleep`. -/
  | retry (p : P)
  /-- The disk serves the request of a process in `iderw`, which returns. -/
  | io (p : P)
  /-- A process changes the data of a buffer it holds. -/
  | store (p : P) (b : β) (data : Block)
  /-- `bwrite` up to `iderw`. -/
  | bwrite (p : P) (b : β)
  | logWrite (p : P) (b : β)
  | brelse (p : P) (b : β)

/-- The process can call something with a buffer it holds. -/
def State.may (s : State P β) (p : P) (b : β) : Bool :=
  (s.pc p).free && s.holds p b

def step (s : State P β) : Label P β → Option (State P β)
  | .bread p dev blockno => if (s.pc p).free then bread s p dev blockno else none
  | .wake p =>
    match s.pc p with
    | .asleep dev blockno _ => some (s.setPc p (.runnable dev blockno))
    | _ => none
  | .retry p =>
    match s.pc p with
    | .runnable dev blockno => bread s p dev blockno
    | _ => none
  | .io p =>
    match s.pc p with
    | .reading dev blockno b => (iderw s b).map (·.setPc p (.got dev blockno b))
    | .writing b => (iderw s b).map (·.setPc p .out)
    | _ => none
  | .store p b data =>
    if s.may p b then
      let c := s.buf b
      some { (s.setBuf b { c with data := data }).setPc p .out with
        stored := update s.stored c.dev (update (s.stored c.dev) c.blockno data)
        unsaved := update s.unsaved b true }
    else none
  | .bwrite p b =>
    if s.may p b then
      if ¬(s.buf b).busy then none
      else some { (s.setBuf b { s.buf b with dirty := true }).setPc p (.writing b) with
        unsaved := update s.unsaved b false }
    else none
  | .logWrite p b =>
    if s.may p b then
      some { (s.setBuf b { s.buf b with dirty := true }).setPc p .out with
        unsaved := update s.unsaved b false }
    else none
  | .brelse p b => if s.may p b then brelse s p b else none

/-- The state after `binit`, with the given disk. -/
structure Start (s : State P β) : Prop where
  links : ∃ bs : List β, bs.Nodup ∧ (∀ b, b ∈ bs) ∧ s.links = binit bs
  buf : ∀ b, (s.buf b).busy = false ∧ (s.buf b).valid = false ∧ (s.buf b).dirty = false ∧
    (s.buf b).dev = NODEV
  pc : ∀ p, s.pc p = .out
  holds : ∀ p b, s.holds p b = false
  stored : s.stored = s.disk
  unsaved : ∀ b, s.unsaved b = false

/-- Blocks are read from real devices, and a buffer that was changed is given to `bwrite` or
`log_write` before `brelse`. -/
def Disciplined (s : State P β) : Label P β → Prop
  | .bread _ dev _ => Real dev
  | .brelse _ b => s.unsaved b = false
  | _ => True

end Xv6.Bio
