import Xv6.FileWrite
import Xv6.Lib.Transition

/-!
# Processes that write one open file

Processes that share an entry `f` of the file table, after `fork` or `dup`, call `filewrite`.
A step of a process is one call that `filewrite` makes (`Pc`) : `begin_op`, `ilock`, `writei`
at the offset the entry has then, the move of the offset, `iunlock`, `end_op`. A call that
sleeps is tried again later, and one that panics ends the run. In between the others take their
steps, and the rest of the system changes the file system as it likes (`Label.other`), but for the
bytes that were written through `f`, the offset, and the lock (`Spares`).

Beside the program, `chunks` lists what each `writei` wrote, in the order in which the lock was
held, and `past` the calls that returned.
-/

open Function Prog Layout List Transition

namespace Xv6.SharedWrite

/-! ## The system -/

/-- A call of `filewrite` : the buffer and its length. -/
structure Call where
  src : ℕ → UInt8
  n : ℤ

/-- The first bytes of the buffer. -/
def Call.take (c : Call) (n : ℕ) : List UInt8 :=
  (List.range n).map c.src

/-- Bytes of the chunk that starts at byte `i`. -/
def Call.chunk (c : Call) (i : ℕ) : ℕ :=
  min (c.n - i).toNat filewriteMax

/-- Where a process is : outside of `filewrite`, or in the loop with `i` bytes of a call done. -/
inductive Pc where
  | idle
  /-- At the test of the loop. -/
  | top (c : Call) (i : ℕ)
  | begun (c : Call) (i : ℕ)
  | locked (c : Call) (i : ℕ)
  /-- After `writei` returned `r`. -/
  | wrote (c : Call) (i : ℕ) (r : Option ℕ)
  /-- After the offset was moved. -/
  | moved (c : Call) (i : ℕ) (r : Option ℕ)
  | unlocked (c : Call) (i : ℕ) (r : Option ℕ)

namespace Pc

/-- The process holds the lock of the inode. -/
def holds : Pc → Bool
  | locked .. | wrote .. | moved .. => true
  | idle | top .. | begun .. | unlocked .. => false

/-- Bytes the process wrote beyond the offset. -/
def ahead : Pc → ℕ
  | wrote _ _ r => r.getD 0
  | _ => 0

/-- The bytes of the call in progress that were written. -/
def bytes : Pc → List UInt8
  | idle => []
  | top c i | begun c i | locked c i => c.take i
  | wrote c i r | moved c i r | unlocked c i r => c.take (i + r.getD 0)

end Pc

/-- The state of the system. -/
structure State (P : Type) where
  fs : FS
  pc : P → Pc
  /-- What was written, a process and its bytes each, in lock order. -/
  chunks : List (P × List UInt8)
  /-- The calls that returned, with the number of bytes each wrote. -/
  past : P → List (Call × ℕ)

/-- A step of the system. -/
inductive Label (P : Type) where
  | call (p : P) (c : Call)
  | step (p : P)
  /-- The rest of the system changes the file system. -/
  | other (fs : FS)

/-- What a call returns with, if it returns. -/
def result {α : Type} (m : M α) (fs : FS) : Option (α × FS) :=
  match m fs with
  | .ok a fs' => some (a, fs')
  | .error _ _ => none

theorem result_eq {α : Type} {m : M α} {fs : FS} {q : α × FS} (h : result m fs = some q) :
    m fs = .ok q.1 q.2 := by
  unfold result at h
  split at h
  · next heq =>
    cases h
    exact heq
  · cases h

section

variable {P : Type} [DecidableEq P]

/-- Process `p` goes to `pc` with the file system `fs`. -/
def State.goto (s : State P) (p : P) (pc : Pc) (fs : FS) : State P :=
  { s with fs := fs, pc := update s.pc p pc }

/-- The call of process `p` returns after `i` bytes. -/
def State.leave (s : State P) (p : P) (c : Call) (i : ℕ) (fs : FS) : State P :=
  { s with
    fs := fs
    pc := update s.pc p .idle
    past := update s.past p (s.past p ++ [(c, i)]) }

/-- Process `p` wrote `bytes`. -/
def State.record (s : State P) (p : P) (bytes : List UInt8) : State P :=
  { s with chunks := s.chunks ++ [(p, bytes)] }

/-- A step of process `p` in `filewrite`. -/
def turn (f : Fptr) (s : State P) (p : P) : Option (State P) :=
  match s.pc p with
  | .idle => none
  | .top c i =>
    if c.n ≤ i then
      some (s.leave p c i s.fs)
    else
      (result beginOp s.fs).map fun q => s.goto p (.begun c i) q.2
  | .begun c i =>
    (result (ilock (s.fs.ftable f).ip) s.fs).map fun q => s.goto p (.locked c i) q.2
  | .locked c i =>
    (result (writei (s.fs.ftable f).ip (fun j => c.src (i + j)) (s.fs.ftable f).off
      (UInt32.ofNat (c.chunk i))) s.fs).map fun q =>
        match q.1 with
        | some r => (s.record p ((List.range r).map fun j => c.src (i + j))).goto p
            (.wrote c i (some r)) q.2
        | none => s.goto p (.wrote c i none) q.2
  | .wrote c i r =>
    some (s.goto p (.moved c i r) (if 0 < r.getD 0 then s.fs.advance f (r.getD 0) else s.fs))
  | .moved c i r =>
    (result (iunlock (s.fs.ftable f).ip) s.fs).map fun q => s.goto p (.unlocked c i r) q.2
  | .unlocked c i r =>
    (result endOp s.fs).bind fun q =>
      match r with
      | none => some (s.leave p c i q.2)
      | some r =>
        -- the panic `short filewrite`
        if r ≠ c.chunk i then none else some (s.goto p (.top c (i + r)) q.2)

/-- Process `p` calls `filewrite`. -/
def enter (f : Fptr) (s : State P) (p : P) (c : Call) : Option (State P) :=
  match s.pc p, (s.fs.ftable f).type with
  | .idle, .inode =>
    if (s.fs.ftable f).writable = false then some (s.leave p c 0 s.fs)
    else some (s.goto p (.top c 0) s.fs)
  | _, _ => none

def step (f : Fptr) (s : State P) : Label P → Option (State P)
  | .call p c => enter f s p c
  | .step p => turn f s p
  | .other fs => some { s with fs := fs }

/-- The bytes that were written. -/
def State.flat (s : State P) : List UInt8 :=
  s.chunks.flatMap Prod.snd

/-- The bytes process `p` wrote, chunk by chunk. -/
def State.flatOf (s : State P) (p : P) : List UInt8 :=
  (s.chunks.filter fun c => c.1 = p).flatMap Prod.snd

/-- The bytes of the buffers of process `p`, call by call. -/
def State.sent (s : State P) (p : P) : List UInt8 :=
  (s.past p).flatMap (fun c => c.1.take c.2) ++ (s.pc p).bytes

/-! ## The invariant -/

/-- Slot `k` has a reference to inode `i`, and is locked when a process of the system holds it. -/
def Referred (k : Iptr) (i : ℕ) (fs : FS) (held : Prop) : Prop :=
  ∃ X R L B, InvX X R L B fs ∧ (k, i) ∈ L ∧ (held → k ∈ B)

theorem Referred.mono {k : Iptr} {i : ℕ} {fs : FS} {p q : Prop} (h : Referred k i fs p)
    (hqp : q → p) : Referred k i fs q := by
  obtain ⟨X, R, L, B, hinv, hmem, hB⟩ := h
  exact ⟨X, R, L, B, hinv, hmem, fun hq => hB (hqp hq)⟩

/-- A process holds the lock. -/
def State.held (s : State P) : Prop :=
  ∃ p, (s.pc p).holds = true

/-- The rest of the system keeps the reference to the file and the lock on it, the entry of
the file table, and the bytes that were written from offset `o` on. -/
structure Spares (f : Fptr) (k : Iptr) (i o : ℕ) (s : State P) (fs : FS) : Prop where
  referred : Referred k i fs s.held
  ip : (fs.ftable f).ip = (s.fs.ftable f).ip
  off : (fs.ftable f).off = (s.fs.ftable f).off
  file : (view fs i).type = T_FILE
  here : o + s.flat.length ≤ (view fs i).size
  byte : ∀ j < s.flat.length, (view fs i).byte (o + j) = (view s.fs i).byte (o + j)

/-- The steps of the rest of the system spare the file. -/
def Obeys (f : Fptr) (k : Iptr) (i o : ℕ) (s : State P) : Label P → Prop
  | .other fs => Spares f k i o s fs
  | _ => True

/-- What holds of the system when the offset was `o` at the start. -/
structure Inv (f : Fptr) (k : Iptr) (i o : ℕ) (s : State P) : Prop where
  referred : Referred k i s.fs s.held
  unique : ∀ p q, (s.pc p).holds = true → (s.pc q).holds = true → p = q
  ip : (s.fs.ftable f).ip = k
  file : (view s.fs i).type = T_FILE
  off_held : ∀ p, (s.pc p).holds = true →
    (s.fs.ftable f).off.toNat + (s.pc p).ahead = o + s.flat.length
  off_free : ¬ s.held → (s.fs.ftable f).off.toNat = o + s.flat.length
  here : o + s.flat.length ≤ (view s.fs i).size
  bytes : (List.range s.flat.length).map (fun j => (view s.fs i).byte (o + j)) = s.flat
  own : ∀ p, s.flatOf p = s.sent p

/-- The start : no process is in `filewrite`, and the offset is in the file. -/
structure Start (f : Fptr) (k : Iptr) (i : ℕ) (s : State P) : Prop where
  referred : Referred k i s.fs False
  ip : (s.fs.ftable f).ip = k
  file : (view s.fs i).type = T_FILE
  off : (s.fs.ftable f).off.toNat ≤ (view s.fs i).size
  idle : ∀ p, s.pc p = .idle
  chunks : s.chunks = []
  past : ∀ p, s.past p = []

/-! ## Steps -/

variable {f : Fptr} {k : Iptr} {i o : ℕ} {s s' : State P} {p : P} {t : Pc}

theorem Start.inv (h : Start f k i s) : Inv f k i (s.fs.ftable f).off.toNat s := by
  have hfree : ¬ s.held := by
    rintro ⟨p, hp⟩
    rw [h.idle p] at hp
    cases hp
  have hflat : s.flat = [] := by
    rw [State.flat, h.chunks, flatMap_nil]
  refine ⟨h.referred.mono hfree, fun p _ hp => absurd ⟨p, hp⟩ hfree, h.ip, h.file,
    fun p hp => absurd ⟨p, hp⟩ hfree, fun _ => ?_, ?_, ?_, fun p => ?_⟩
  · rw [hflat]
    rfl
  · rw [hflat]
    exact h.off
  · rw [hflat]
    rfl
  · rw [State.flatOf, State.sent, h.chunks, h.past, h.idle]
    rfl

theorem held_of_update (hpc : s'.pc = update s.pc p t) (h : s'.held) :
    t.holds = true ∨ s.held := by
  obtain ⟨q, hq⟩ := h
  rw [hpc] at hq
  obtain ⟨-, heq⟩ | ⟨-, heq⟩ := update_cases s.pc p t q <;> rw [heq] at hq
  · exact .inr ⟨q, hq⟩
  · exact .inl hq

theorem Inv.only (h : Inv f k i o s) (hp : (s.pc p).holds = true)
    (hpc : s'.pc = update s.pc p t) {q : P} (hq : (s'.pc q).holds = true) : q = p := by
  by_contra hne
  rw [hpc, update_of_ne hne] at hq
  exact hne (h.unique q p hq hp)

theorem Inv.free_of_update (h : Inv f k i o s) (hp : (s.pc p).holds = true)
    (ht : t.holds = false) (hpc : s'.pc = update s.pc p t) : ¬ s'.held := by
  rintro ⟨q, hq⟩
  obtain rfl := h.only hp hpc hq
  rw [hpc, update_self, ht] at hq
  cases hq

/-- A step of one process that writes nothing. -/
theorem Inv.quiet (h : Inv f k i o s) (hfs : Kept s.fs s'.fs)
    (hpc : s'.pc = update s.pc p t) (hchunks : s'.chunks = s.chunks)
    (href : Referred k i s'.fs s'.held) (hahead : (s.pc p).ahead = 0) (hahead' : t.ahead = 0)
    (hlock : t.holds = true → (s.pc p).holds = true ∨ ¬ s.held)
    (hsent : ∀ q, s'.sent q = s.sent q) : Inv f k i o s' := by
  have hflat : s'.flat = s.flat := by rw [State.flat, State.flat, hchunks]
  have hother : ∀ q, q ≠ p → s'.pc q = s.pc q := fun q hq => by
    rw [hpc, update_of_ne hq]
  have hself : s'.pc p = t := by rw [hpc, update_self]
  -- the offset, when the lock is with `p` or free before the step
  have hoff : (s.pc p).holds = true ∨ ¬ s.held → (s.fs.ftable f).off.toNat = o + s.flat.length := by
    rintro (hp | hfree)
    · rw [← h.off_held p hp, hahead, Nat.add_zero]
    · exact h.off_free hfree
  have hkeep : ∀ q, q ≠ p → (s'.pc q).holds = true → (s'.pc p).holds = true → False := by
    intro q hne hq hp
    rw [hother q hne] at hq
    rw [hself] at hp
    rcases hlock hp with hp' | hfree
    · exact hne (h.unique q p hq hp')
    · exact hfree ⟨q, hq⟩
  refine ⟨href, fun q r hq hr => ?_, by rw [hfs.ftable, h.ip], by rw [hfs.view_eq, h.file],
    fun q hq => ?_, fun hfree => ?_, ?_, ?_, fun q => ?_⟩
  · by_cases hqp : q = p <;> by_cases hrp : r = p
    · rw [hqp, hrp]
    · subst hqp
      exact (hkeep r hrp hr hq).elim
    · subst hrp
      exact (hkeep q hqp hq hr).elim
    · rw [hother q hqp] at hq
      rw [hother r hrp] at hr
      exact h.unique q r hq hr
  · rw [hflat, hfs.ftable]
    by_cases hqp : q = p
    · subst hqp
      rw [hself] at hq ⊢
      rw [hahead', Nat.add_zero]
      exact hoff (hlock hq)
    · rw [hother q hqp] at hq ⊢
      exact h.off_held q hq
  · rw [hflat, hfs.ftable]
    refine hoff ?_
    by_cases hp : (s.pc p).holds = true
    · exact .inl hp
    · right
      rintro ⟨q, hq⟩
      refine hfree ⟨q, ?_⟩
      rwa [hother q fun hqp => hp (hqp ▸ hq)]
  · rw [hflat, hfs.view_eq]
    exact h.here
  · rw [hflat, hfs.view_eq]
    exact h.bytes
  · rw [hsent, ← h.own, State.flatOf, State.flatOf, hchunks]

theorem sent_goto (hbytes : t.bytes = (s.pc p).bytes) (fs : FS) (q : P) :
    (s.goto p t fs).sent q = s.sent q := by
  unfold State.sent State.goto
  obtain ⟨-, heq⟩ | ⟨rfl, heq⟩ := update_cases s.pc p t q <;> dsimp only <;> rw [heq]
  rw [hbytes]

theorem sent_leave {c : Call} {j : ℕ} (hbytes : (s.pc p).bytes = c.take j) (fs : FS) (q : P) :
    (s.leave p c j fs).sent q = s.sent q := by
  unfold State.sent State.leave
  dsimp only
  by_cases hq : q = p
  · subst hq
    rw [update_self, update_self, hbytes, flatMap_append]
    simp [Pc.bytes]
  · rw [update_of_ne hq, update_of_ne hq]

theorem Inv.unlocked (h : Inv f k i o s) (hfs : Kept s.fs s'.fs) (hc : s'.fs.icache = s.fs.icache)
    (hpc : s'.pc = update s.pc p t) (hchunks : s'.chunks = s.chunks)
    (ht : t.holds = false) (hahead : (s.pc p).ahead = 0) (hahead' : t.ahead = 0)
    (hsent : ∀ q, s'.sent q = s.sent q) : Inv f k i o s' := by
  obtain ⟨X, R, L, B, hinv, hmem, hB⟩ := h.referred
  refine h.quiet hfs hpc hchunks ⟨X, R, L, B, hinv.congr hfs.disk hfs.sb hc, hmem, fun hheld => ?_⟩
    hahead hahead' (fun hht => ?_) hsent
  · rcases held_of_update hpc hheld with hht | hheld'
    · rw [ht] at hht
      cases hht
    · exact hB hheld'
  · rw [ht] at hht
    cases hht

theorem Inv.lock (h : Inv f k i o s) {c : Call} {j : ℕ} (hp : s.pc p = .begun c j) {fs : FS}
    (hrun : ilock (s.fs.ftable f).ip s.fs = .ok () fs) :
    Inv f k i o (s.goto p (.locked c j) fs) := by
  obtain ⟨X, R, L, B, hinv, hmem, hB⟩ := h.referred
  rw [h.ip] at hrun
  obtain ⟨hfree, -, hinv', hq⟩ := wp_ok (ilock_spec hinv hmem) hrun
  exact h.quiet hq.kept rfl rfl
    ⟨X, R, L, insert k B, hinv', hmem, fun _ => Finset.mem_insert_self k B⟩ (by rw [hp]; rfl) rfl
    (fun _ => .inr fun hheld => hfree (hB hheld)) (sent_goto (by rw [hp]; rfl) fs)

theorem Inv.unlock (h : Inv f k i o s) {c : Call} {j : ℕ} {r : Option ℕ}
    (hp : s.pc p = .moved c j r) {fs : FS}
    (hrun : iunlock (s.fs.ftable f).ip s.fs = .ok () fs) :
    Inv f k i o (s.goto p (.unlocked c j r) fs) := by
  obtain ⟨X, R, L, B, hinv, hmem, hB⟩ := h.referred
  have hholds : (s.pc p).holds = true := by
    rw [hp]
    rfl
  rw [h.ip] at hrun
  obtain ⟨hinv', hq⟩ := wp_ok (iunlock_spec hinv (hB ⟨p, hholds⟩)) hrun
  exact h.quiet hq.kept rfl rfl
    ⟨X, R, L, B.erase k, hinv', hmem, fun hheld => absurd hheld (h.free_of_update hholds rfl rfl)⟩
    (by rw [hp]; rfl) rfl (fun ht => .inl hholds) (sent_goto (by rw [hp]; rfl) fs)

theorem flatOf_record (s : State P) (p q : P) (bytes : List UInt8) :
    (s.record p bytes).flatOf q = s.flatOf q ++ if p = q then bytes else [] := by
  unfold State.flatOf State.record
  rw [filter_append, flatMap_append]
  split_ifs with hq <;> simp [hq]

theorem Call.take_add (c : Call) (j n : ℕ) :
    c.take (j + n) = c.take j ++ (List.range n).map fun l => c.src (j + l) := by
  unfold Call.take
  rw [range_add, map_append, map_map]
  rfl

/-- `writei` of a chunk at the offset. -/
theorem Inv.write (h : Inv f k i o s) {c : Call} {j n : ℕ} (hp : s.pc p = .locked c j) {fs : FS}
    (hs : Stored s.fs k i (fun l => c.src (j + l)) (s.fs.ftable f).off.toNat n fs)
    (href : Referred k i fs True) :
    Inv f k i o ((s.record p ((List.range n).map fun l => c.src (j + l))).goto p
      (.wrote c j (some n)) fs) := by
  have hholds : (s.pc p).holds = true := by
    rw [hp]
    rfl
  have hoff : (s.fs.ftable f).off.toNat = o + s.flat.length := by
    rw [← h.off_held p hholds, hp]
    rfl
  have hftable : fs.ftable = s.fs.ftable := congrArg Env.ftable hs.env
  set s' := (s.record p ((List.range n).map fun l => c.src (j + l))).goto p (.wrote c j (some n)) fs
    with hs'
  have hflat : s'.flat = s.flat ++ (List.range n).map fun l => c.src (j + l) := by
    rw [State.flat, State.flat]
    simp [hs', State.record, State.goto]
  have hlen : s'.flat.length = s.flat.length + n := by
    rw [hflat, length_append, length_map, length_range]
  have hself : s'.pc p = .wrote c j (some n) := update_self _ _ _
  have honly : ∀ q, (s'.pc q).holds = true → q = p := fun q hq => h.only hholds rfl hq
  refine ⟨href.mono fun _ => trivial, fun q r hq hr => (honly q hq).trans (honly r hr).symm, ?_, ?_,
    fun q hq => ?_, fun hfree => ?_, ?_, ?_, fun q => ?_⟩
  · show (fs.ftable f).ip = k
    rw [hftable, h.ip]
  · show (view fs i).type = T_FILE
    rw [hs.self, Node.setSize_type, Node.setBlocks_type, h.file]
  · show (fs.ftable f).off.toNat + (s'.pc q).ahead = _
    rw [honly q hq, hself, hftable, hoff, hlen]
    exact Nat.add_assoc _ _ _
  · refine absurd ⟨p, ?_⟩ hfree
    rw [hself]
    rfl
  · show o + s'.flat.length ≤ (view fs i).size
    rw [hs.self, Node.setSize_size, hlen, hoff]
    omega
  · show (List.range s'.flat.length).map (fun l => (view fs i).byte (o + l)) = s'.flat
    rw [hlen, range_add, map_append, hflat, map_map]
    congr 1
    · refine (map_congr_left fun l hl => ?_).trans h.bytes
      rw [hs.byte, if_neg (by have := mem_range.1 hl; omega)]
    · refine map_congr_left fun l hl => ?_
      have hl' := mem_range.1 hl
      show (view fs i).byte (o + (s.flat.length + l)) = c.src (j + l)
      rw [hs.byte, if_pos (by omega), hoff]
      congr 2
      omega
  · have hflatOf := flatOf_record s p q ((List.range n).map fun l => c.src (j + l))
    refine hflatOf.trans ?_
    rw [h.own, State.sent, State.sent]
    by_cases hq : p = q
    · subst hq
      rw [if_pos rfl, hself, hp, append_assoc]
      exact congrArg (_ ++ ·) (c.take_add j n).symm
    · rw [if_neg hq, append_nil,
        show s'.pc q = s.pc q from update_of_ne (Ne.symm hq) _ _]
      rfl

theorem Inv.move (h : Inv f k i o s) {c : Call} {j : ℕ} {r : Option ℕ}
    (hp : s.pc p = .wrote c j r) :
    Inv f k i o (s.goto p (.moved c j r) (s.fs.advance f (r.getD 0))) := by
  have hholds : (s.pc p).holds = true := by
    rw [hp]
    rfl
  have hoff : (s.fs.ftable f).off.toNat + r.getD 0 = o + s.flat.length := by
    rw [← h.off_held p hholds, hp]
    rfl
  obtain ⟨X, R, L, B, hinv, hmem, hB⟩ := h.referred
  have hend : (s.fs.ftable f).off.toNat + r.getD 0 ≤ MAXFILE * BSIZE := by
    rw [hoff]
    exact h.here.trans (hinv.size_le hmem h.file)
  set s' := s.goto p (.moved c j r) (s.fs.advance f (r.getD 0)) with hs'
  have hff : s'.fs.ftable f = (s.fs.ftable f).advance (r.getD 0) := update_self _ _ _
  have hself : s'.pc p = .moved c j r := update_self _ _ _
  have honly : ∀ q, (s'.pc q).holds = true → q = p := fun q hq => h.only hholds rfl hq
  refine ⟨⟨X, R, L, B, hinv.congr rfl rfl rfl, hmem, fun _ => hB ⟨p, hholds⟩⟩,
    fun q r hq hr => (honly q hq).trans (honly r hr).symm, ?_, h.file, fun q hq => ?_,
    fun hfree => ?_, h.here, h.bytes, fun q => ?_⟩
  · rw [hff]
    exact h.ip
  · rw [honly q hq, hself, hff, File.toNat_off_advance hend]
    exact hoff
  · refine absurd ⟨p, ?_⟩ hfree
    rw [hself]
    rfl
  · rw [hs', sent_goto (by rw [hp]; rfl)]
    exact h.own q

theorem Inv.other (h : Inv f k i o s) {fs : FS} (hsp : Spares f k i o s fs) :
    Inv f k i o { s with fs := fs } where
  referred := hsp.referred
  unique := h.unique
  ip := hsp.ip.trans h.ip
  file := hsp.file
  off_held p hp := by
    rw [hsp.off]
    exact h.off_held p hp
  off_free hfree := by
    rw [hsp.off]
    exact h.off_free hfree
  here := hsp.here
  bytes := by
    refine (map_congr_left fun l hl => ?_).trans h.bytes
    exact hsp.byte l (mem_range.1 hl)
  own := h.own

theorem Call.toNat_chunk (c : Call) (j : ℕ) : (UInt32.ofNat (c.chunk j)).toNat = c.chunk j := by
  have hle : c.chunk j ≤ 6656 := min_le_right _ _
  exact UInt32.toNat_ofNat_of_lt' (by show c.chunk j < 4294967296; omega)

theorem Inv.writei_cases (h : Inv f k i o s) {c : Call} {j : ℕ} (hp : s.pc p = .locked c j)
    {r : Option ℕ} {fs : FS}
    (hrun : writei (s.fs.ftable f).ip (fun l => c.src (j + l)) (s.fs.ftable f).off
      (UInt32.ofNat (c.chunk j)) s.fs = .ok r fs) :
    Referred k i fs True ∧ (r = none ∧ fs = s.fs ∨ r = some (c.chunk j) ∧
      Stored s.fs k i (fun l => c.src (j + l)) (s.fs.ftable f).off.toNat (c.chunk j) fs) := by
  obtain ⟨X, R, L, B, hinv, hmem, hB⟩ := h.referred
  have hkB : k ∈ B := hB ⟨p, by rw [hp]; rfl⟩
  rw [h.ip] at hrun
  obtain ⟨hinv', hr⟩ := wp_ok (writei_locked hinv hmem hkB h.file _ _ _) hrun
  refine ⟨⟨X, R, L, B, hinv', hmem, fun _ => hkB⟩, ?_⟩
  rw [Call.toNat_chunk] at hr
  split_ifs at hr
  · exact .inl hr
  · exact .inr hr

theorem beginOp_kept {fs fs' : FS} (hrun : beginOp fs = .ok () fs') :
    Kept fs fs' ∧ fs'.icache = fs.icache := by
  obtain rfl := wp_ok (beginOp_spec fs) hrun
  exact ⟨.begun fs, rfl⟩

theorem endOp_kept {fs fs' : FS} (hrun : endOp fs = .ok () fs') :
    Kept fs fs' ∧ fs'.icache = fs.icache := by
  obtain rfl := wp_ok (endOp_spec fs) hrun
  exact ⟨.ended fs, rfl⟩

/-- A step of a process keeps the invariant. -/
theorem Inv.turn (h : Inv f k i o s) (hs : turn f s p = some s') : Inv f k i o s' := by
  unfold SharedWrite.turn at hs
  cases hp : s.pc p with
  | idle =>
    rw [hp] at hs
    cases hs
  | top c j =>
    simp only [hp] at hs
    split_ifs at hs
    · cases hs
      exact h.unlocked (.refl _) rfl rfl rfl rfl (by rw [hp]; rfl) rfl
        (sent_leave (by rw [hp]; rfl) _)
    · obtain ⟨q, hq, rfl⟩ := Option.map_eq_some_iff.1 hs
      obtain ⟨hfs, hc⟩ := beginOp_kept (result_eq hq)
      exact h.unlocked hfs hc rfl rfl rfl (by rw [hp]; rfl) rfl (sent_goto (by rw [hp]; rfl) _)
  | begun c j =>
    simp only [hp] at hs
    obtain ⟨q, hq, rfl⟩ := Option.map_eq_some_iff.1 hs
    exact h.lock hp (result_eq hq)
  | locked c j =>
    simp only [hp] at hs
    obtain ⟨q, hq, rfl⟩ := Option.map_eq_some_iff.1 hs
    obtain ⟨href, ⟨hr, hfs⟩ | ⟨hr, hstored⟩⟩ := h.writei_cases hp (result_eq hq)
    · rw [hfs] at href
      rw [hr, hfs]
      exact h.quiet (.refl _) rfl rfl (href.mono fun _ => trivial) (by rw [hp]; rfl) rfl
        (fun _ => .inl (by rw [hp]; rfl)) (sent_goto (by rw [hp]; rfl) _)
    · rw [hr]
      exact h.write hp hstored href
  | wrote c j r =>
    simp only [hp] at hs
    cases hs
    rw [show (if 0 < r.getD 0 then s.fs.advance f (r.getD 0) else s.fs) =
      s.fs.advance f (r.getD 0) from ?_]
    · exact h.move hp
    · split_ifs with hpos
      · rfl
      · rw [Nat.eq_zero_of_not_pos hpos, FS.advance_zero]
  | moved c j r =>
    simp only [hp] at hs
    obtain ⟨q, hq, rfl⟩ := Option.map_eq_some_iff.1 hs
    exact h.unlock hp (result_eq hq)
  | unlocked c j r =>
    simp only [hp] at hs
    obtain ⟨q, hq, hs⟩ := Option.bind_eq_some_iff.1 hs
    obtain ⟨hfs, hc⟩ := endOp_kept (result_eq hq)
    cases r with
    | none =>
      cases hs
      exact h.unlocked hfs hc rfl rfl rfl (by rw [hp]; rfl) rfl (sent_leave (by rw [hp]; rfl) _)
    | some r =>
      dsimp only at hs
      split_ifs at hs
      cases hs
      exact h.unlocked hfs hc rfl rfl rfl (by rw [hp]; rfl) rfl (sent_goto (by rw [hp]; rfl) _)

theorem Inv.enter (h : Inv f k i o s) {c : Call} (hs : enter f s p c = some s') :
    Inv f k i o s' := by
  unfold SharedWrite.enter at hs
  split at hs
  · next hp _ =>
    split_ifs at hs <;> cases hs
    · exact h.unlocked (.refl _) rfl rfl rfl rfl (by rw [hp]; rfl) rfl
        (sent_leave (by rw [hp]; rfl) _)
    · exact h.unlocked (.refl _) rfl rfl rfl rfl (by rw [hp]; rfl) rfl
        (sent_goto (by rw [hp]; rfl) _)
  · cases hs

/-- Every step keeps the invariant. -/
theorem Inv.step (h : Inv f k i o s) {l : Label P} (hl : Obeys f k i o s l)
    (hs : step f s l = some s') : Inv f k i o s' := by
  cases l with
  | call p c => exact h.enter hs
  | step p => exact h.turn hs
  | other fs =>
    cases hs
    exact h.other hl

theorem obeys_of_not_other {ls : List (Label P)} (h : ∀ fs, .other fs ∉ ls) :
    Along (SharedWrite.step f) (Obeys f k i o) s ls := by
  refine (along_of_forall (D := fun l => ∀ fs, l ≠ .other fs) ?_).mono ?_
  · rintro l hl fs rfl
    exact h fs hl
  · intro s l hl
    cases l with
    | call | step => trivial
    | other fs => exact absurd rfl (hl fs)

/-- Writes through a shared entry of the file table are not lost. The file has from the first offset
on what was written, chunk after chunk in lock order, and the offset is at the end of it when no
process holds the lock. The chunks of a process are the bytes of its buffers, in order. -/
theorem writes_in_lock_order (h : Start f k i s) {ls : List (Label P)}
    (hls : Along (SharedWrite.step f) (Obeys f k i (s.fs.ftable f).off.toNat) s ls)
    (hrun : run (SharedWrite.step f) s ls = some s') :
    ((view s'.fs i).data.drop (s.fs.ftable f).off.toNat).take s'.flat.length = s'.flat ∧
    ((∀ p, (s'.pc p).holds = false) →
      (s'.fs.ftable f).off.toNat = (s.fs.ftable f).off.toNat + s'.flat.length) ∧
    ∀ p, s'.flatOf p = s'.sent p := by
  have hinv : Inv f k i (s.fs.ftable f).off.toNat s' :=
    run_invariant (fun _ _ _ h hl hs => h.step hl hs) h.inv hls hrun
  refine ⟨?_, fun hfree => hinv.off_free ?_, hinv.own⟩
  · rw [Node.data_slice, Nat.min_eq_left (Nat.le_sub_of_add_le' hinv.here)]
    exact hinv.bytes
  · rintro ⟨p, hp⟩
    rw [hfree p] at hp
    cases hp

end

/-- Two processes, none of them in a call yet. -/
def ready : State Bool :=
  ⟨opened, fun _ => .idle, [], fun _ => []⟩

/-- Each has two bytes to write. Both begin before one gets the lock, and the other writes
when it is free again. -/
def two : List (Label Bool) :=
  [.call true ⟨fun _ => 1, 2⟩, .call false ⟨fun _ => 2, 2⟩] ++ [.step true, .step false] ++
    List.replicate 4 (.step false) ++ List.replicate 4 (.step true) ++ [.step false, .step true]

theorem ready_start : Start 0 0 1 ready where
  referred := ⟨_, _, _, _, opened_inv, Multiset.mem_singleton_self _, False.elim⟩
  ip := rfl
  file := opened_alone.file
  off := Nat.zero_le _
  idle _ := rfl
  chunks := rfl
  past _ := rfl

/-- The file has the bytes of one process and then those of the other. -/
theorem writes_in_lock_order_two : ∃ s, run (step 0) ready two = some s ∧
    s.flat = [2, 2, 1, 1] ∧ (view s.fs 1).data.take 4 = [2, 2, 1, 1] := by
  have hflat : (run (step 0) ready two).map State.flat = some [2, 2, 1, 1] := by
    decide +kernel
  obtain ⟨s, hrun, hs⟩ := Option.map_eq_some_iff.1 hflat
  have hobeys : Along (step 0) (Obeys 0 0 1 (ready.fs.ftable 0).off.toNat) ready two :=
    obeys_of_not_other fun fs hfs => by simp [two] at hfs
  obtain ⟨hdata, -, -⟩ := writes_in_lock_order ready_start hobeys hrun
  rw [hs] at hdata
  exact ⟨s, hrun, hs, hdata⟩

end Xv6.SharedWrite
